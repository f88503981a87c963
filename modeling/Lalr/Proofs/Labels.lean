import Lalr.Proofs.Following
import Lalr.Proofs.Translation

/-!
# The symbols of the frames

A frame of the stack stands for a symbol: for the terminal that was shifted into it, or for the left-hand side of
the rule that was reduced into it.  The parser does not store it, and the node in the frame may have lost it.
`Context.labelled` therefore pairs each node with its symbol and otherwise does what the given context does.

Labels change nothing.  Forgetting them turns every step of the labelled parser into a step of the parser itself
(`Parser.after_mapNodes`): both go through the same states with the same memory, and they answer every call in
the same way.  With them it can be said what the states on the stack are.  The root is state zero, and each next
state is where the automaton goes from the one below it on the label of its frame (`Parser.Labelled`).
-/

namespace Lalr

/-! ### Forgetting a part of the nodes -/

/-- The second context does to the images of nodes what the first one does to the nodes. -/
structure Context.MapsTo {σ N M : Type} (f : N → M) (c : Context σ N) (d : Context σ M) : Prop where
  terminal : ∀ token memory, d.terminal token memory = Prod.map f id (c.terminal token memory)
  nonterminal : ∀ r children memory,
    d.nonterminal r (children.map f) memory = Prod.map f id (c.nonterminal r children memory)
  accept : ∀ node memory, d.accept (f node) memory = c.accept node memory
  reject : ∀ rejection memory, d.reject (rejection.map f) memory = c.reject rejection memory
  filter : d.filter = c.filter
  name : d.name = c.name

/-- Taking the images of the nodes is faithful when the second context does to them what the first one does. -/
lemma Context.MapsTo.faithful {σ N M : Type} {f : N → M} {c : Context σ N} {d : Context σ M} (h : c.MapsTo f d)
    (t : Table) : (⟨.refl, f, id, t, d⟩ : Translation σ N σ M).Faithful t c where
  table := .refl t
  terminal := h.terminal
  nonterminal := h.nonterminal
  accept := h.accept
  reject := h.reject
  filter symbol text memory := by
    rw [h.filter]
    rfl
  name symbol memory := by
    rw [h.name]
    rfl

/-- The stack with the images of its nodes. -/
def Stack.map {N M : Type} (f : N → M) (s : Stack N) : Stack M where
  path := s.path
  nodes := s.nodes.map f
  length_nodes := by rw [List.length_map, s.length_nodes]

namespace Parser

variable {σ N M : Type} (f : N → M) (d : Context σ M)

/-- The parser with the images of the nodes, for a context that makes them. -/
def mapNodes (p : Parser σ N) : Parser σ M where
  table := p.table
  context := d
  memory := p.memory
  stack := p.stack.map f
  limit := p.limit
  isFinished := p.isFinished
  stats := p.stats

/-- Taking the images of the nodes is a translation that changes nothing else. -/
lemma mapNodes_eq_carry (p : Parser σ N) :
    p.mapNodes f d = (⟨.refl, f, id, p.table, d⟩ : Translation σ N σ M).carry p := by
  have hstack : p.stack.map f = p.stack.translate id f :=
    Stack.ext (Path.renumber_id p.stack.path).symm rfl
  rw [mapNodes, hstack]
  rfl

variable {f d}

/-- Calls on the images are calls on the nodes. -/
lemma after_mapNodes {p : Parser σ N} (h : p.context.MapsTo f d) (calls : List (Nat × Token)) :
    (p.mapNodes f d).after calls = (p.after calls).mapNodes f d := by
  rw [mapNodes_eq_carry, mapNodes_eq_carry, (p.matches_after calls).table]
  exact Translation.after_carry (h.faithful p.table) calls

end Parser

/-! ### Labels -/

namespace Context

variable {σ N : Type}

/-- The context that pairs each node with the symbol that it stands for. -/
def labelled (c : Context σ N) : Context σ (Symbol × N) where
  terminal token memory := Prod.map (Prod.mk token.symbol) id (c.terminal token memory)
  nonterminal r children memory :=
    Prod.map (Prod.mk r.lhs) id (c.nonterminal r (children.map Prod.snd) memory)
  accept node memory := c.accept node.2 memory
  reject rejection memory := c.reject (rejection.map Prod.snd) memory
  filter := c.filter
  name := c.name

/-- Without the labels, the labelled context is the given one. -/
lemma labelled_mapsTo (c : Context σ N) : c.labelled.MapsTo Prod.snd c :=
  ⟨fun _ _ => rfl, fun _ _ _ => rfl, fun _ _ => rfl, fun _ _ => rfl, rfl, rfl⟩

end Context

namespace Parser

variable {σ N : Type} {g : Augmented} {a : Automaton}

/-- The parser labels its nodes, and its states follow the automaton along the labels. -/
structure Labelled (g : Augmented) (a : Automaton) (p : Parser σ (Symbol × N)) : Prop where
  fits : p.table.Fits g a
  context : ∃ c : Context σ N, p.context = c.labelled
  spells : p.stack.path.Spells a (p.stack.nodes.map Prod.fst)

section

variable (wf : g.WellFormed) (ha : a.Closed g)
include wf ha

/-- A reduction puts its left-hand side in place of the labels of its body. -/
lemma Labelled.reduce {p q : Parser σ (Symbol × N)} (h : p.Labelled g a) {x : Symbol} (hq : Reduces x p q) :
    q.Labelled g a := by
  obtain ⟨c, hc⟩ := h.context
  obtain ⟨k, r, s, m, ω, -, -, hnodes, hω, hspells, hgoto, hmatches, hstack⟩ :=
    hq.exists_push wf ha h.fits h.spells
  have hrest : s.nodes.map Prod.fst = ω := by
    rw [hnodes, List.map_drop, hω, List.drop_left' (by simp)]
  refine ⟨hmatches.table ▸ h.fits, ⟨c, hmatches.context.trans hc⟩, ?_⟩
  rw [hstack, hc]
  exact .push (hrest ▸ hspells) hgoto

/-- Reductions and shifts keep the labels on the automaton. -/
lemma invariant_labelled : Invariant fun (p : Parser σ (Symbol × N)) _ => p.Labelled g a where
  of_matches h hmatches hstack :=
    ⟨hmatches.table ▸ h.fits, hmatches.context ▸ h.context, hstack ▸ h.spells⟩
  reduce h hq := h.reduce wf ha hq
  shift {p tokens token m} h haction := by
    obtain ⟨c, hc⟩ := h.context
    have hlabel : (p.context.terminal token p.memory).1.1 = token.symbol := by rw [hc]; rfl
    refine ⟨h.fits, h.context, ?_⟩
    change (p.stack.path.push m).Spells a ((p.context.terminal token p.memory).1.1 :: _)
    rw [hlabel]
    exact .push h.spells (h.fits.of_shift haction).2

/-- Any calls keep the labels on the automaton. -/
lemma Labelled.after {p : Parser σ (Symbol × N)} (h : p.Labelled g a) (calls : List (Nat × Token)) :
    (p.after calls).Labelled g a := by
  refine (invariant_labelled wf ha).after (fun {p q} hp hq => ?_) h calls
  obtain ⟨node, s, hpop, -, rfl⟩ := accept_eq_ok hq
  have hpath : p.stack.path.pop? = some s.path := by
    rw [← Stack.map_path_pop?, hpop]
    rfl
  have hspells := hp.spells.of_pop? hpath
  rw [Stack.nodes_of_pop? hpop] at hspells
  exact ⟨hp.fits, hp.context, hspells⟩

end

end Parser

namespace Grammar

/-- The states on the stack of a parser for a constructed table start with state zero, and each next one is
where the automaton goes from the one below on the symbol of its frame; the labelled parser, which runs in step
with it, knows these symbols.  Therefore trying any symbol finds the rules, the bodies and the gotos that it
needs, and only fuel can run out; and a call, whatever its token, can fault besides only by accepting with
frames left. -/
theorem stack_follows_automaton {grammar : Grammar} {g : Augmented} (haugment : grammar.augment = .ok g)
    (verbose : Bool) :
    ∃ c, grammar.construct verbose = .ok c ∧
      ∀ {σ N : Type} {context : Context σ N} {memory : σ} {p : Parser σ N},
        Parser.create c.table context memory = .ok p →
        ∃ labelled : Parser σ (Symbol × N),
          Parser.create c.table context.labelled memory = .ok labelled ∧
          ∀ (limit : Nat) (calls : List (Nat × Token)),
            (({ labelled with limit } : Parser σ (Symbol × N)).after calls).mapNodes Prod.snd context =
              ({ p with limit } : Parser σ N).after calls ∧
            (({ p with limit } : Parser σ N).after calls).stack.path.Spells c.automaton
              ((({ labelled with limit } : Parser σ (Symbol × N)).after calls).stack.nodes.map Prod.fst) ∧
            (∀ fuel x fault, (({ p with limit } : Parser σ N).after calls).table.simulate fuel
              (({ p with limit } : Parser σ N).after calls).stack.path x = .error fault →
              fault = .unsettled) ∧
            ∀ fuel token fault,
              ((({ p with limit } : Parser σ N).after calls).process fuel token).outcome = .fault fault →
              fault = .unsettled ∨ ∃ state frames, fault = .acceptLeaves state frames := by
  have wf := wellFormed_of_augment haugment
  obtain ⟨c, hc, -, hclosed, hfits⟩ := exists_construct_eq_ok haugment verbose
  refine ⟨c, hc, fun {σ N context memory p} hcreate => ?_⟩
  obtain ⟨hcheck, rfl⟩ := Parser.create_eq_ok hcreate
  have hlabelled : Parser.create c.table context.labelled memory =
      .ok { table := c.table, context := context.labelled, memory, stack := Stack.root c.table.start } := by
    simp [Parser.create, hcheck, bind, Except.bind]
  refine ⟨_, hlabelled, fun limit calls => ?_⟩
  set p : Parser σ N := { table := c.table, context, memory, stack := Stack.root c.table.start, limit }
  set q : Parser σ (Symbol × N) :=
    { table := c.table, context := context.labelled, memory, stack := Stack.root c.table.start, limit }
  have hmap : (q.after calls).mapNodes Prod.snd context = p.after calls :=
    (Parser.after_mapNodes (p := q) context.labelled_mapsTo calls).symm
  have hstart : q.Labelled g c.automaton := ⟨hfits, ⟨context, rfl⟩, hfits.spells_root⟩
  have hlabels : (p.after calls).stack.path.Spells c.automaton ((q.after calls).stack.nodes.map Prod.fst) := by
    rw [← hmap]
    exact (hstart.after wf hclosed calls).spells
  have hfollows : (p.after calls).Follows g c.automaton :=
    (Parser.follows_of_create hfits hcreate limit).after wf hclosed calls
  have hsimulate : ∀ fuel x fault, (p.after calls).table.simulate fuel (p.after calls).stack.path x =
      .error fault → fault = .unsettled := fun fuel x fault hfault =>
    hlabels.eq_unsettled_of_simulateFrom wf hclosed hfollows.fits hfault
  refine ⟨hmap, hlabels, hsimulate, fun fuel token fault hfault => ?_⟩
  rcases hfollows.process_fault_cases wf hclosed hfault with ⟨x, hx⟩ | ⟨q, x, hq, haction, haccept⟩
  · exact Or.inl (hsimulate fuel x fault hx)
  · exact Or.inr (hq.eq_acceptLeaves_of_accept wf hclosed haction haccept)

/-- After two opening brackets and a closing one, the frames of the parser for nested pairs stand for
`( ( S )`, the states follow the automaton along these symbols, and no token can make a call fault in another
way than for want of fuel or by accepting too early. -/
theorem stack_follows_automaton_nested :
    ∃ c p labelled, nested.construct false = .ok c ∧ Parser.create c.table Tree.context none = .ok p ∧
      Parser.create c.table Tree.context.labelled none = .ok labelled ∧
      (labelled.after [(9, ⟨⟨10⟩, "(", 0⟩), (9, ⟨⟨10⟩, "(", 1⟩), (9, ⟨⟨11⟩, ")", 2⟩)]).stack.nodes.map Prod.fst =
        [⟨11⟩, ⟨1⟩, ⟨10⟩, ⟨10⟩] ∧
      (p.after [(9, ⟨⟨10⟩, "(", 0⟩), (9, ⟨⟨10⟩, "(", 1⟩), (9, ⟨⟨11⟩, ")", 2⟩)]).stack.path.Spells c.automaton
        [⟨11⟩, ⟨1⟩, ⟨10⟩, ⟨10⟩] ∧
      ∀ fuel token fault,
        ((p.after [(9, ⟨⟨10⟩, "(", 0⟩), (9, ⟨⟨10⟩, "(", 1⟩), (9, ⟨⟨11⟩, ")", 2⟩)]).process fuel token).outcome =
          .fault fault → fault = .unsettled ∨ ∃ state frames, fault = .acceptLeaves state frames := by
  obtain ⟨g, hg⟩ := exists_augment_nested
  obtain ⟨c, p, hc, hp, -⟩ := exists_accepted_nested
  obtain ⟨c', hc', hall⟩ := stack_follows_automaton hg false
  obtain rfl := Except.ok.inj (hc.symm.trans hc')
  obtain ⟨labelled, hlabelled, hafter⟩ := hall hp
  have hrun : (do
      let c ← (nested.construct false).toOption
      let p ← (Parser.create c.table Tree.context.labelled none).toOption
      some ((p.after [(9, ⟨⟨10⟩, "(", 0⟩), (9, ⟨⟨10⟩, "(", 1⟩), (9, ⟨⟨11⟩, ")", 2⟩)]).stack.nodes.map Prod.fst)) =
      some [⟨11⟩, ⟨1⟩, ⟨10⟩, ⟨10⟩] := by decide +kernel
  rw [hc] at hrun
  have hlabels : (labelled.after [(9, ⟨⟨10⟩, "(", 0⟩), (9, ⟨⟨10⟩, "(", 1⟩),
      (9, ⟨⟨11⟩, ")", 2⟩)]).stack.nodes.map Prod.fst = [⟨11⟩, ⟨1⟩, ⟨10⟩, ⟨10⟩] := by
    simpa [Except.toOption, hlabelled] using hrun
  obtain ⟨-, rfl⟩ := Parser.create_eq_ok hp
  obtain ⟨-, rfl⟩ := Parser.create_eq_ok hlabelled
  obtain ⟨-, hspells, -, hfaults⟩ :=
    hafter 0 [(9, ⟨⟨10⟩, "(", 0⟩), (9, ⟨⟨10⟩, "(", 1⟩), (9, ⟨⟨11⟩, ")", 2⟩)]
  exact ⟨c, _, _, hc, hp, hlabelled, hlabels, hlabels ▸ hspells, hfaults⟩

end Grammar

end Lalr
