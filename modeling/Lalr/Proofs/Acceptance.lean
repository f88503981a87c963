import Lalr.Proofs.Termination

/-!
# Acceptance empties the stack

A table accepts by the complete augmenting rule.  Below the start symbol on top of the stack there is then a
state that reaches the beginning of this rule.  If the initial symbol occurs in no string that the start symbol
derives, only the first state does so, and the start symbol is all there is on the stack
(`Grammar.depth_eq_one_of_accept`).

A grammar may have the initial symbol in its bodies, and no check refuses it.  A state in which the initial
symbol comes after a dot reaches the beginning of the augmenting rule as well, and states are told apart by their
kernels alone, so that such a state and the first one lead to the same state on the start symbol.  There the
table accepts at the end of input, with the frames of the unfinished body still on the stack
(`Grammar.exists_accept_leaves_frames`).
-/

namespace Lalr

namespace Grammar

/-- Where the initial symbol occurs in no string that the start symbol derives, a table accepts only with a
single frame above the root: after any calls, on every stack that the reductions under a symbol lead to.
Therefore no call of the parser faults by accepting, and it can only run out of fuel. -/
theorem depth_eq_one_of_accept {grammar : Grammar} {g : Augmented} (haugment : grammar.augment = .ok g)
    (hinit : ¬ grammar.Occurs grammar.init) (verbose : Bool) :
    ∃ c, grammar.construct verbose = .ok c ∧
      ∀ {σ N : Type} {context : Context σ N} {memory : σ} {p : Parser σ N},
        Parser.create c.table context memory = .ok p →
        ∀ (limit : Nat) (calls : List (Nat × Token)),
          (∀ (first last : Parser σ N) (x : Symbol),
            (({ p with limit } : Parser σ N).after calls).Matches first →
            first.stack = (({ p with limit } : Parser σ N).after calls).stack →
            Relation.ReflTransGen (Parser.Reduces x) first last →
            last.table.action? last.stack.top x = some .accept → last.stack.depth = 1) ∧
          ∀ fuel token fault,
            ((({ p with limit } : Parser σ N).after calls).process fuel token).outcome = .fault fault →
            fault = .unsettled := by
  have wf := wellFormed_of_augment haugment
  obtain ⟨c, hc, -, hclosed, hfits⟩ := exists_construct_eq_ok haugment verbose
  have havoids := hclosed.explored.avoidsInit haugment hinit
  refine ⟨c, hc, fun {σ N context memory p} hcreate limit calls => ?_⟩
  have hafter := (Parser.follows_of_create hfits hcreate limit).after wf hclosed calls
  refine ⟨fun first last x hmatches hstack hchain haccept => ?_, fun fuel token fault hfault => ?_⟩
  · have hfirst := hafter.of_matches hmatches hstack
    have hlast := (Parser.invariant_follows wf hclosed).of_reduces [] hfirst hchain
    obtain ⟨node, hnodes⟩ := hlast.exists_nodes_eq_of_accept wf hclosed havoids haccept
    rw [← Stack.length_nodes_eq_depth, hnodes, List.length_singleton]
  · obtain ⟨x, hx⟩ := hafter.exists_simulate_of_process wf hclosed havoids hfault
    obtain ⟨ω, hω⟩ := hafter.spells
    exact hω.eq_unsettled_of_simulateFrom wf hclosed hafter.fits hx

/-- The initial symbol of nested pairs does not occur, and no calls make the parser fault by accepting. -/
theorem depth_eq_one_of_accept_nested :
    ¬ nested.Occurs nested.init ∧
      ∃ c p, nested.construct false = .ok c ∧ Parser.create c.table Tree.context none = .ok p ∧
        ∀ (calls : List (Nat × Token)) (fuel : Nat) (token : Token) (fault : Fault),
          ((p.after calls).process fuel token).outcome = .fault fault → fault = .unsettled := by
  have hinit : ¬ nested.Occurs nested.init := by
    intro hoccurs
    rcases hoccurs.eq_start_or_mem with heq | ⟨p, hp, hmem⟩
    · exact absurd heq (by decide +kernel)
    · have hall : ∀ p ∈ nested.productions, nested.init ∉ p.2 := by decide +kernel
      exact hall p hp hmem
  obtain ⟨g, hg⟩ := exists_augment_nested
  obtain ⟨c, p, hc, hp, -⟩ := exists_accepted_nested
  obtain ⟨c', hc', hall⟩ := depth_eq_one_of_accept hg hinit false
  obtain rfl := Except.ok.inj (hc.symm.trans hc')
  exact ⟨hinit, c, p, hc, hp, fun calls => (hall hp p.limit calls).2⟩

/-- The initial symbol between two terminals: `S ::= a I b | c`, with the symbols `I = 0`, `S = 1`, `a = 10`,
`b = 11` and `c = 12`. -/
def bracketed : Grammar :=
  ofProductions [(⟨1⟩, [⟨10⟩, ⟨0⟩, ⟨11⟩]), (⟨1⟩, [⟨12⟩])]

/-- With the initial symbol in a body, the end of input in the middle of that body makes the parser accept and
leave the frame of the first terminal on the stack. -/
theorem exists_accept_leaves_frames :
    ∃ c p, bracketed.construct false = .ok c ∧ Parser.create c.table Tree.context none = .ok p ∧
      ((p.after [(9, ⟨⟨10⟩, "a", 0⟩), (9, ⟨⟨12⟩, "c", 1⟩)]).finish 9 2).outcome =
        .fault (.acceptLeaves 1 1) := by
  have hrun : (do
      let c ← (bracketed.construct false).toOption
      let p ← (Parser.create c.table Tree.context none).toOption
      some ((p.after [(9, ⟨⟨10⟩, "a", 0⟩), (9, ⟨⟨12⟩, "c", 1⟩)]).finish 9 2).outcome) =
      some (.fault (.acceptLeaves 1 1)) := by decide +kernel
  obtain ⟨c, hc, hrun⟩ := Option.bind_eq_some_iff.1 hrun
  obtain ⟨p, hp, hrun⟩ := Option.bind_eq_some_iff.1 hrun
  exact ⟨c, p, toOption_eq_some_iff.1 hc, toOption_eq_some_iff.1 hp, Option.some.inj hrun⟩

end Grammar

end Lalr
