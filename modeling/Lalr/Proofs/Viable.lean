import Lalr.Proofs.Canonical
import Lalr.Proofs.Following

/-!
# Parsers read prefixes of sentences

The symbols along a path through the automaton are a viable prefix: something can follow them so that the whole
is derived from the initial symbol.  This is shown item by item.  A core stands for its rule being under way, and
`Augmented.Viable` says that a string leaves room for it: the string ends with the body up to the dot, and in front
of the rest of the body it is derived from the initial symbol.  Opening a rule keeps the string
(`Augmented.Viable.expand`), and moving the dot over a symbol adds the symbol to it (`Augmented.Viable.advance`).
Nothing is said about lookaheads, so that conflicts which were resolved and lookaheads which were merged do no
harm.

What a parser has shifted is derived from the symbols along its path, since reductions only go back in a
derivation (`Path.Yields`).  Where every nonterminal derives terminals, what can follow the path can be brought
to terminals too, and then the shifted tokens are the beginning of a sentence.
-/

namespace Lalr

/-! ### Viable prefixes -/

namespace Augmented

/-- The rule of the core can be under way at the end of the string: the string ends with the body up to the dot,
and with the left-hand side in the place of the body, it is the beginning of a string that is derived from the
initial symbol. -/
def Viable (g : Augmented) (γ : Body) (c : Core) : Prop :=
  ∃ (r : Rule) (δ rest : Body), g.rules[c.rule]? = some r ∧ γ = δ ++ r.rhs.take c.dot ∧
    Derives g.productions [g.init] (δ ++ r.lhs :: rest) ∧ ∀ x ∈ rest, x ∈ g.kinds

variable {g : Augmented}

/-- The augmenting rule can be under way at the beginning. -/
lemma viable_start (wf : g.WellFormed) : g.Viable [] ⟨0, 0⟩ :=
  ⟨_, [], [], wf.augmenting, rfl, .refl, nofun⟩

/-- The string is followed by the rest of the body. -/
lemma Viable.exists_derives {γ : Body} {c : Core} (h : g.Viable γ c) :
    ∃ (r : Rule) (rest : Body), g.rules[c.rule]? = some r ∧ (∀ x ∈ rest, x ∈ g.kinds) ∧
      Derives g.productions [g.init] (γ ++ r.rhs.drop c.dot ++ rest) := by
  obtain ⟨r, δ, rest, hr, rfl, hderives, hrest⟩ := h
  have hp : (r.lhs, r.rhs) ∈ g.productions := mem_productions_of_rule hr
  have hstep : Rewrites g.productions (δ ++ r.lhs :: rest) (δ ++ r.rhs ++ rest) := ⟨_, hp, δ, rest, rfl, rfl⟩
  refine ⟨r, rest, hr, hrest, ?_⟩
  rw [List.append_assoc δ, List.take_append_drop]
  exact hderives.tail hstep

/-- A rule that is opened can be under way with the same string. -/
lemma Viable.expand (wf : g.WellFormed) {γ : Body} {c : Core} (h : g.Viable γ c) {n : Nat} {rest : Body}
    (ho : g.Opens c n rest) : g.Viable γ ⟨n, 0⟩ := by
  obtain ⟨r, hr, hm⟩ := ho
  have hkinds := (hm.mem_kinds wf).2
  obtain ⟨r', hr', hdrop⟩ := hm
  obtain ⟨r'', after, hr'', hafter, hderives⟩ := h.exists_derives
  obtain rfl := Option.some.inj (hr'.symm.trans hr'')
  rw [hdrop, List.append_assoc, List.cons_append] at hderives
  exact ⟨r, γ, rest ++ after, hr, by simp, hderives, List.forall_mem_append.2 ⟨hkinds, hafter⟩⟩

/-- Moving the dot over a symbol adds the symbol to the string. -/
lemma Viable.advance {γ : Body} {c : Core} (h : g.Viable γ c) {x : Symbol} {rest : Body}
    (hm : g.Marks c x rest) : g.Viable (γ ++ [x]) c.advance := by
  obtain ⟨r, δ, after, hr, rfl, hderives, hafter⟩ := h
  obtain ⟨r', hr', hx, -⟩ := hm.getElem?
  obtain rfl := Option.some.inj (hr.symm.trans hr')
  refine ⟨r, δ, after, hr, ?_, hderives, hafter⟩
  simp [Core.advance, List.take_add_one, hx]

/-- The rules that a set of cores reaches can be under way with the same string. -/
lemma Viable.of_reaches (wf : g.WellFormed) {γ : Body} {K : Core → Prop} (hK : ∀ c, K c → g.Viable γ c)
    {c : Core} (h : g.Reaches K c) : g.Viable γ c := by
  induction h with
  | kernel hc => exact hK _ hc
  | expand _ ho ih => exact ih.expand wf ho

end Augmented

namespace Path.Spells

variable {g : Augmented} {a : Automaton} {p : Path} {ω : List Symbol}

/-- Every core that the current state reaches can be under way at the end of the path. -/
lemma viable (wf : g.WellFormed) (ha : a.Explored g) (h : p.Spells a ω) {c : Core}
    (hc : g.Reaches (KernelAt a.states p.top) c) : g.Viable ω.reverse c := by
  induction h generalizing c with
  | root =>
    refine Augmented.Viable.of_reaches wf (fun k hk => ?_) hc
    rw [(ha.start k).1 hk]
    exact Augmented.viable_start wf
  | @push p ω x m _ hgoto ih =>
    refine Augmented.Viable.of_reaches wf (fun k hk => ?_) hc
    obtain ⟨d, rest, hd, hm, rfl⟩ := ((ha.target hgoto).2.2.2 k).1 hk
    rw [List.reverse_cons]
    exact (ih hd).advance hm

/-- The kernel of the current state is not empty. -/
lemma exists_kernelAt (ha : a.Explored g) (h : p.Spells a ω) : ∃ c, KernelAt a.states p.top c := by
  cases h with
  | root => exact ⟨_, (ha.start _).2 rfl⟩
  | push _ hgoto => exact ha.exists_kernelAt_of_goto hgoto

/-- Where every nonterminal derives terminals, the symbols along a path can be followed by terminals. -/
lemma exists_derives (wf : g.WellFormed) (hg : g.Productive) (ha : a.Explored g) (h : p.Spells a ω) :
    ∃ rest, Derives g.productions [g.init] (ω.reverse ++ rest) ∧ ∀ x ∈ rest, g.kinds.IsTerminal x := by
  obtain ⟨c, hc⟩ := h.exists_kernelAt ha
  obtain ⟨r, rest, hr, hrest, hderives⟩ := (h.viable wf ha (.kernel hc)).exists_derives
  have hbody : ∀ x ∈ r.rhs.drop c.dot, x ∈ g.kinds := fun x hx =>
    wf.mem_kinds hr x (List.mem_of_mem_drop hx)
  obtain ⟨w, hw, hterminal⟩ := hg.generates (List.forall_mem_append.2 ⟨hbody, hrest⟩)
  rw [List.append_assoc] at hderives
  exact ⟨w, hderives.trans (Derives.append .refl hw), hterminal⟩

end Path.Spells

/-- Terminals that are derived from the initial symbol are derived from the start symbol. -/
lemma Augmented.WellFormed.derives_start {g : Augmented} (wf : g.WellFormed) {w : Body}
    (h : Derives g.productions [g.init] w) (hw : ∀ x ∈ w, g.kinds.IsTerminal x) :
    Derives g.productions [g.start] w := by
  rcases h.cases_head with rfl | ⟨v, hs, hv⟩
  · have hterminal := hw g.init List.mem_cons_self
    exact absurd hterminal (Augmented.not_isTerminal (wf.isNonterminal_lhs wf.augmenting))
  · obtain ⟨k, r, hr, hlhs, rfl⟩ := Augmented.mem_productions.1 (rewrites_singleton_iff.1 hs)
    obtain rfl := wf.eq_zero_of_lhs hr hlhs
    obtain rfl := Option.some.inj (wf.augmenting.symm.trans hr)
    exact hv

/-! ### What a path yields -/

namespace Path

variable {g : Augmented} {a : Automaton} {t : Table} {p : Path} {w : Body}

/-- The string is derived from the symbols along the path. -/
def Yields (g : Augmented) (a : Automaton) (p : Path) (w : Body) : Prop :=
  ∃ ω, p.Spells a ω ∧ Derives g.productions ω.reverse w

/-- The root yields the empty string. -/
lemma yields_root : (root 0).Yields g a [] :=
  ⟨[], .root, .refl⟩

/-- A reduction goes one step back in the derivation. -/
lemma Yields.of_reducesPath (wf : g.WellFormed) (ha : a.Closed g) (ht : t.Fits g a) (h : p.Yields g a w)
    {x : Symbol} {q : Path} (hq : t.ReducesPath x p q) : q.Yields g a w := by
  obtain ⟨ω, hω, hderives⟩ := h
  obtain ⟨r, ω', hr, rfl, hspells⟩ := hω.exists_of_reducesPath wf ha ht hq
  rw [List.reverse_append, List.reverse_reverse] at hderives
  have hstep : Rewrites g.productions (ω'.reverse ++ [r.lhs]) (ω'.reverse ++ r.rhs) :=
    ⟨_, hr, ω'.reverse, [], rfl, by simp⟩
  refine ⟨r.lhs :: ω', hspells, ?_⟩
  rw [List.reverse_cons]
  exact .head hstep hderives

/-- Chains of reductions keep what a path yields. -/
lemma Yields.of_chain (wf : g.WellFormed) (ha : a.Closed g) (ht : t.Fits g a) (h : p.Yields g a w)
    {x : Symbol} {q : Path} (hq : Relation.ReflTransGen (t.ReducesPath x) p q) : q.Yields g a w := by
  induction hq with
  | refl => exact h
  | tail _ hreduces ih => exact ih.of_reducesPath wf ha ht hreduces

/-- Going along a transition adds its symbol. -/
lemma Yields.push (h : p.Yields g a w) {x : Symbol} {m : Nat} (hgoto : a.goto? p.top x = some m) :
    (p.push m).Yields g a (w ++ [x]) := by
  obtain ⟨ω, hω, hderives⟩ := h
  refine ⟨x :: ω, .push hω hgoto, ?_⟩
  rw [List.reverse_cons]
  exact hderives.append .refl

/-- Where every nonterminal derives terminals, terminals that a path yields can be followed by terminals so that
the whole is derived from the start symbol. -/
lemma Yields.exists_derives (wf : g.WellFormed) (hg : g.Productive) (ha : a.Explored g) (h : p.Yields g a w)
    (hw : ∀ x ∈ w, g.kinds.IsTerminal x) :
    ∃ rest, Derives g.productions [g.start] (w ++ rest) ∧ ∀ x ∈ w ++ rest, g.kinds.IsTerminal x := by
  obtain ⟨ω, hω, hderives⟩ := h
  obtain ⟨rest, hrest, hterminal⟩ := hω.exists_derives wf hg ha
  have hall : ∀ x ∈ w ++ rest, g.kinds.IsTerminal x := List.forall_mem_append.2 ⟨hw, hterminal⟩
  exact ⟨rest, wf.derives_start (hrest.trans (hderives.append .refl)) hall, hall⟩

end Path

/-! ### Parsers -/

namespace Parser

variable {σ N : Type} {g : Augmented} {a : Automaton}

/-- The parser runs the table of the automaton, and its path yields the tokens, which are terminals. -/
structure Yields (g : Augmented) (a : Automaton) (p : Parser σ N) (tokens : List Token) : Prop where
  fits : p.table.Fits g a
  isTerminal : ∀ x ∈ tokens.map Token.symbol, g.kinds.IsTerminal x
  yields : p.stack.path.Yields g a (tokens.map Token.symbol)

/-- A parser that is created for a fitting table has read nothing. -/
lemma yields_of_create {table : Table} {context : Context σ N} {memory : σ} {p : Parser σ N}
    (hfits : table.Fits g a) (h : create table context memory = .ok p) (limit : Nat) :
    ({ p with limit } : Parser σ N).Yields g a [] := by
  obtain ⟨-, rfl⟩ := create_eq_ok h
  exact ⟨hfits, nofun, [], hfits.spells_root, .refl⟩

/-- Reductions and shifts keep what the path yields. -/
lemma invariant_yields (wf : g.WellFormed) (ha : a.Closed g) :
    Invariant fun (p : Parser σ N) tokens => p.Yields g a tokens where
  of_matches h hmatches hstack := ⟨hmatches.table ▸ h.fits, h.isTerminal, hstack ▸ h.yields⟩
  reduce h hq :=
    ⟨hq.matches.table ▸ h.fits, h.isTerminal, h.yields.of_reducesPath wf ha h.fits hq.reducesPath⟩
  shift {p tokens token m} h haction := by
    obtain ⟨hterminal, hgoto⟩ := h.fits.of_shift haction
    refine ⟨h.fits, ?_, ?_⟩
    · rw [List.map_append]
      exact List.forall_mem_append.2 ⟨h.isTerminal, by simpa using hterminal⟩
    · rw [List.map_append]
      exact h.yields.push hgoto

end Parser

namespace Grammar

/-- The string consists of terminals and is derived from the start symbol by the productions. -/
def IsSentence (grammar : Grammar) (ps : List (Symbol × Body)) (w : Body) : Prop :=
  Derives ps [grammar.start] w ∧ ∀ x ∈ w, grammar.classification.IsTerminal x

/-- Derivations by the rules of the augmented grammar are derivations by its productions. -/
lemma isSentence_of_derives {grammar : Grammar} {g : Augmented} (haugment : grammar.augment = .ok g) {w : Body}
    (h : Derives g.productions [g.start] w) (hw : ∀ x ∈ w, g.kinds.IsTerminal x) :
    grammar.IsSentence grammar.augmentedProductions w := by
  obtain ⟨-, -, hstart, hkinds, -⟩ := augment_eq_ok haugment
  exact ⟨hstart ▸ h.mono fun p hp => (mem_productions_iff haugment).1 hp, hkinds ▸ hw⟩

/-- Where every nonterminal derives terminals, what a parser for a constructed table has read is the beginning of
a sentence, after any calls that leave the parse unfinished and whatever the context answers; and a call shifts its
token only under a symbol with which it still is one. -/
theorem read_is_prefix_of_sentence {grammar : Grammar} {g : Augmented} (haugment : grammar.augment = .ok g)
    (hgenerates : ∀ A, grammar.classification.IsNonterminal A →
      Generates grammar.augmentedProductions grammar.classification [A]) (verbose : Bool) :
    ∃ c, grammar.construct verbose = .ok c ∧
      ∀ {σ N : Type} {context : Context σ N} {memory : σ} {p : Parser σ N},
        Parser.create c.table context memory = .ok p →
        ∀ (limit : Nat) (calls : List (Nat × Token)),
          (({ p with limit } : Parser σ N).after calls).isFinished = false →
          ∃ tokens, (∀ read, ({ p with limit } : Parser σ N).Reads calls read ↔ read = tokens) ∧
            (∃ rest, grammar.IsSentence grammar.augmentedProductions (tokens.map Token.symbol ++ rest)) ∧
            ∀ fuel token,
              ((({ p with limit } : Parser σ N).after calls).process fuel token).outcome =
                .progress .shifted →
              ∃ x rest, (({ p with limit } : Parser σ N).after calls).ParsedAs fuel token x ∧
                grammar.IsSentence grammar.augmentedProductions (tokens.map Token.symbol ++ x :: rest) := by
  have wf := wellFormed_of_augment haugment
  have hproductive := productive_of_generates haugment hgenerates
  obtain ⟨c, hc, -, hclosed, hfits⟩ := exists_construct_eq_ok haugment verbose
  refine ⟨c, hc, fun {σ N context memory p} hcreate limit calls hunfinished => ?_⟩
  have hinvariant : Parser.Invariant fun (p : Parser σ N) tokens => p.Yields g c.automaton tokens :=
    Parser.invariant_yields wf hclosed
  have hstart := Parser.yields_of_create hfits hcreate limit
  have hsentence {q : Parser σ N} {tokens : List Token} (hq : q.Yields g c.automaton tokens) :
      ∃ rest, grammar.IsSentence grammar.augmentedProductions (tokens.map Token.symbol ++ rest) := by
    obtain ⟨rest, hderives, hterminal⟩ :=
      hq.yields.exists_derives wf hproductive hclosed.explored hq.isTerminal
    exact ⟨rest, isSentence_of_derives haugment hderives hterminal⟩
  obtain ⟨tokens, hread, hfinished | hafter⟩ := hinvariant.exists_reads hstart calls
  · cases hunfinished.symm.trans hfinished
  · rw [List.nil_append] at hafter
    refine ⟨tokens, fun read => ⟨fun h => h.unique hread, fun h => h ▸ hread⟩, hsentence hafter, ?_⟩
    intro fuel token hshifted
    rcases hinvariant.process_cases hafter fuel token with
      ⟨x, hx, -, hstep⟩ | ⟨q, x, -, -, -, haccepted⟩ | ⟨hother, -, -⟩
    · obtain ⟨rest, hrest⟩ := hsentence hstep
      exact ⟨x, rest, hx, by simpa using hrest⟩
    · cases hshifted.symm.trans haccepted
    · exact absurd hshifted hother

/-- The parser for nested pairs shifts two opening brackets and a closing one, and is not finished then. -/
lemma exists_reads_nested :
    ∃ c p, nested.construct false = .ok c ∧ Parser.create c.table Tree.context none = .ok p ∧
      (p.after [(9, ⟨⟨10⟩, "(", 0⟩), (9, ⟨⟨10⟩, "(", 1⟩), (9, ⟨⟨11⟩, ")", 2⟩)]).isFinished = false ∧
      p.Reads [(9, ⟨⟨10⟩, "(", 0⟩), (9, ⟨⟨10⟩, "(", 1⟩), (9, ⟨⟨11⟩, ")", 2⟩)]
        [⟨⟨10⟩, "(", 0⟩, ⟨⟨10⟩, "(", 1⟩, ⟨⟨11⟩, ")", 2⟩] := by
  obtain ⟨g, hg⟩ := exists_augment_nested
  obtain ⟨c, hc, -, hclosed, hfits⟩ := exists_construct_eq_ok hg false
  have hrun : (do
      let c ← (nested.construct false).toOption
      let p ← (Parser.create c.table Tree.context none).toOption
      let q := p.after [(9, ⟨⟨10⟩, "(", 0⟩), (9, ⟨⟨10⟩, "(", 1⟩), (9, ⟨⟨11⟩, ")", 2⟩)]
      some (q.isFinished, Tree.leavesOfAll q.stack.nodesFromRoot)) =
      some (false, [⟨⟨10⟩, "(", 0⟩, ⟨⟨10⟩, "(", 1⟩, ⟨⟨11⟩, ")", 2⟩]) := by decide +kernel
  obtain ⟨c', hc', hrun⟩ := Option.bind_eq_some_iff.1 hrun
  obtain rfl := Except.ok.inj (hc.symm.trans (toOption_eq_some_iff.1 hc'))
  obtain ⟨p, hp, hrun⟩ := Option.bind_eq_some_iff.1 hrun
  obtain ⟨hunfinished, hleaves⟩ := Prod.mk.inj (Option.some.inj hrun)
  have hp : Parser.create c.table Tree.context none = .ok p := toOption_eq_some_iff.1 hp
  have hkeeps : Tree.Keeps Tree.context id := ⟨fun _ _ => rfl, fun _ _ _ => rfl, fun _ _ => rfl⟩
  have hbuilds : p.Builds nested g c.automaton id [] := Parser.builds_of_create hfits hkeeps hp p.limit
  exact ⟨c, p, hc, hp, hunfinished, hleaves ▸ hbuilds.reads_leaves hg hclosed _ hunfinished⟩

/-- What the parser for nested pairs has read after two opening brackets and a closing one is the beginning of a
sentence. -/
theorem read_is_prefix_of_sentence_nested :
    ∃ c p rest, nested.construct false = .ok c ∧ Parser.create c.table Tree.context none = .ok p ∧
      (∀ A, nested.classification.IsNonterminal A →
        Generates nested.augmentedProductions nested.classification [A]) ∧
      (p.after [(9, ⟨⟨10⟩, "(", 0⟩), (9, ⟨⟨10⟩, "(", 1⟩), (9, ⟨⟨11⟩, ")", 2⟩)]).isFinished = false ∧
      nested.IsSentence nested.augmentedProductions ([⟨10⟩, ⟨10⟩, ⟨11⟩] ++ rest) := by
  obtain ⟨g, hg⟩ := exists_augment_nested
  obtain ⟨c, p, hc, hp, hunfinished, hreads⟩ := exists_reads_nested
  obtain ⟨c', hc', hall⟩ := read_is_prefix_of_sentence hg (fun A hA => generates_nested hA) false
  obtain rfl := Except.ok.inj (hc.symm.trans hc')
  obtain ⟨tokens, hunique, ⟨rest, hrest⟩, -⟩ := hall hp p.limit _ hunfinished
  rw [← (hunique _).1 hreads] at hrest
  exact ⟨c, p, rest, hc, hp, fun A hA => generates_nested hA, hunfinished, hrest⟩

end Grammar

end Lalr
