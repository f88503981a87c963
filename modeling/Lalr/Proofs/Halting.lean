import Lalr.Proofs.Run
import Mathlib.Data.Fintype.Card
import Mathlib.Data.Fintype.EquivFin

/-!
# Chains of reductions that come to an end

The reductions that a symbol calls for on a path are determined, so they come to an end or go on for ever;
`Table.Halts` says that they come to an end.  A reduction need not make the path shorter: a rule with an empty
body makes it longer, and a rule with one symbol in its body leaves its depth as it is.

The argument follows the items that look at the symbol.  There are three ways in which an item can do so.

* The symbol begins what comes after the dot.  Then the path will be extended by symbols that vanish, until
  the symbol can be shifted (`halts_of_starts`).
* Everything after the dot vanishes and the symbol comes after the rule.  Then the path will be extended to
  the end of the body and the rule reduced (`halts_of_rest`).
* The item is complete.  Its lookahead comes from a core of the kernel in one of these two ways
  (`exists_kernel_of_closes`).

So a chain of reductions either halts or brings the path back below the body of a kernel core, up to the
dot.  That makes it shorter, unless the body up to the dot is a single symbol, which is then replaced by the
left-hand side of its rule.  Where such replacements cannot go round in a circle, all chains come to an end
(`halts_of_spells`).

For this the symbols that occur in derivations from the start symbol have to be sound in two ways
(`Grammar.halts_of_acyclic`).  Each of them derives a string of terminals; the initial symbol, which has no
rules of its own, therefore does not occur.  And none of them stands for itself: a symbol stands for the
first symbol of one of its bodies when the rest of the body derives the empty string (`StandsFor`), and there
is no circle of such symbols.
-/

namespace Lalr

/-- The reductions that the symbol calls for on the path come to an end. -/
inductive Table.Halts (t : Table) (x : Symbol) : Path → Prop
  /-- No reduction is called for. -/
  | stop {p : Path} (h : ∀ k, t.action? p.top x ≠ some (.reduce k)) : Halts t x p
  /-- A reduction leads to a path from which they come to an end. -/
  | reduce {p q : Path} {k : Nat} (hk : t.action? p.top x = some (.reduce k))
      (hpath : t.reducePath k p = .ok q) (h : Halts t x q) : Halts t x p

/-- Where a rule is reduced, the complete augmenting rule apart, no other rule is reducible. -/
lemma Table.Fits.eq_of_reducible {g : Augmented} {a : Automaton} {t : Table} (h : t.Fits g a) {n k l : Nat}
    {x : Symbol} (haction : t.action? n x = some (.reduce k)) (hl : a.Reducible g n x l) :
    l = k ∨ l = 0 ∧ x ≠ Symbol.eof := by
  rcases h.action?_cases haction with ⟨-, m, -, heq⟩ | ⟨-, rules, hrules, hsettles⟩
  · cases heq
  · obtain ⟨-, haccept, -, -, hall⟩ := hsettles
    have hmem := (hrules l).2 hl
    rcases hall l hmem with rfl | rfl
    · exact Or.inr ⟨rfl, fun hx => haccept hx hmem⟩
    · exact Or.inl rfl

namespace Automaton

/-- Every core that is reached has a lookahead, and none of them has the initial symbol after its dot. -/
structure Live (g : Augmented) (a : Automaton) : Prop where
  exists_looksAt : ∀ {n : Nat} {c : Core}, g.Reaches (KernelAt a.states n) c → ∃ y, LooksAt a.states n c y
  not_marks_init : ∀ {n : Nat} {c : Core} {rest : Body}, g.Reaches (KernelAt a.states n) c →
    ¬ g.Marks c g.init rest

variable {g : Augmented} {a : Automaton} {t : Table}

section

variable (wf : g.WellFormed) (hlive : a.Live g)
include wf hlive

/-- A core that is reached does not open the augmenting rule. -/
lemma Live.ne_zero_of_opens {n k : Nat} {c : Core} {rest : Body} (hc : g.Reaches (KernelAt a.states n) c)
    (ho : g.Opens c k rest) : k ≠ 0 := by
  rintro rfl
  obtain ⟨r, hr, hm⟩ := ho
  obtain rfl := Option.some.inj (wf.augmenting.symm.trans hr)
  exact hlive.not_marks_init hc hm

/-- The closure of a kernel core brings the augmenting rule lookaheads only from itself. -/
lemma Live.eq_of_probes {n : Nat} {k c : Core} {x : Symbol} (hk : KernelAt a.states n k)
    (h : g.Probes k c x) (hc : c.rule = 0) : c = k ∧ x = Symbol.placeholder := by
  have hreaches {d : Core} (hd : g.Reaches (fun e => e = k) d) : g.Reaches (KernelAt a.states n) d :=
    hd.mono fun e he => he ▸ hk
  cases h with
  | seed h => exact h
  | begin h ho _ => exact absurd hc (hlive.ne_zero_of_opens wf (.kernel (h ▸ hk)) ho)
  | expand h ho _ => exact absurd hc (hlive.ne_zero_of_opens wf (hreaches (Augmented.Probes.reaches h)) ho)

/-- The augmenting rule is followed by the end of input only. -/
lemma Live.eq_eof (ha : a.Closed g) {n : Nat} {c : Core} {x : Symbol} (h : LooksAt a.states n c x)
    (hc : c.rule = 0) : x = Symbol.eof := by
  have hcarried {site : Site} {x : Symbol} (hx : a.Carried g site x) (hsite : site.core.rule = 0) :
      x = Symbol.eof := by
    induction hx with
    | start => rfl
    | arises h =>
      obtain ⟨n, k, c, y, rest, m, hk, hprobe, hne, -, -, rfl⟩ := h
      exact absurd (hlive.eq_of_probes wf hk hprobe hsite).2 hne
    | link _ hl ih =>
      obtain ⟨hk, c, y, rest, m, hprobe, -, -, rfl⟩ := hl
      obtain ⟨rfl, -⟩ := hlive.eq_of_probes wf hk hprobe hsite
      exact ih hsite
  cases ha.looksAt_iff_closes.1 h with
  | seed hseed => exact hcarried hseed.2 hc
  | begin hk ho _ => exact absurd hc (hlive.ne_zero_of_opens wf (.kernel hk) ho)
  | expand hd ho _ =>
    exact absurd hc (hlive.ne_zero_of_opens wf (hd.reaches fun _ _ hl => hl.1) ho)

end

/-! ### Where a lookahead comes from -/

/-- A lookahead of a core whose rest vanishes begins the rest of some core, or is a lookahead of a kernel core
whose rest vanishes. -/
lemma exists_kernel_of_closes {K : Core → Prop} {L : Core → Symbol → Prop} (hL : ∀ c x, L c x → K c)
    {c : Core} {x : Symbol} (h : g.Closes K L c x) {r : Rule} (hr : g.rules[c.rule]? = some r)
    (hnull : ∀ A ∈ r.rhs.drop c.dot, Nullable g.productions A) :
    (∃ d r, g.Reaches K d ∧ g.rules[d.rule]? = some r ∧
        Starts g.productions g.kinds (r.rhs.drop d.dot) x) ∨
      ∃ k r, L k x ∧ g.rules[k.rule]? = some r ∧ ∀ A ∈ r.rhs.drop k.dot, Nullable g.productions A := by
  -- a rule that is opened and vanishes makes the symbol before the dot vanish
  have hopened {d : Core} {n : Nat} {rest : Body} {r : Rule} (ho : g.Opens d n rest)
      (hr : g.rules[n]? = some r) (hnull : ∀ A ∈ r.rhs, Nullable g.productions A) :
      ∃ r', g.rules[d.rule]? = some r' ∧ r'.rhs.drop d.dot = r.lhs :: rest ∧
        Nullable g.productions r.lhs := by
    obtain ⟨r₁, hr₁, r', hr', hdrop⟩ := ho
    obtain rfl := Option.some.inj (hr.symm.trans hr₁)
    exact ⟨r', hr', hdrop, .of_production (Augmented.mem_productions_of_rule hr) hnull⟩
  induction h generalizing r with
  | @seed c x hseed => exact Or.inr ⟨c, r, hseed, hr, hnull⟩
  | @begin d n rest x hd ho hx =>
    obtain ⟨r', hr', hdrop, hlhs⟩ := hopened ho hr hnull
    exact Or.inl ⟨d, r', .kernel hd, hr', hdrop ▸ .skip hlhs hx⟩
  | @expand d n rest x y hd ho hx ih =>
    obtain ⟨r', hr', hdrop, hlhs⟩ := hopened ho hr hnull
    rcases hx with hx | ⟨hrest, rfl⟩
    · exact Or.inl ⟨d, r', hd.reaches hL, hr', hdrop ▸ .skip hlhs hx⟩
    · exact ih hr' (hdrop ▸ List.forall_mem_cons.2 ⟨hlhs, hrest⟩)

/-! ### Symbols that vanish -/

/-- Wherever the symbol comes after a dot and all its rules look at `x`, the reductions under `x` halt if they
do so once the symbol has been pushed. -/
def Vanishes (g : Augmented) (a : Automaton) (t : Table) (x A : Symbol) : Prop :=
  ∀ {p : Path} {ω : List Symbol} {c : Core} {rest : Body} {m : Nat}, p.Spells a ω →
    g.Reaches (KernelAt a.states p.top) c → g.Marks c A rest →
    (∀ k r, g.rules[k]? = some r → r.lhs = A → LooksAt a.states p.top ⟨k, 0⟩ x) →
    a.goto? p.top A = some m → t.Halts x (p.push m) → t.Halts x p

section

variable (wf : g.WellFormed) (ha : a.Closed g) (ht : t.Fits g a)
include wf ha ht

/-- Where a rule is reducible, the reductions halt if they do so after this one. -/
lemma halts_of_reducible {p : Path} {ω : List Symbol} (hp : p.Spells a ω) {x : Symbol} {k : Nat}
    (hk : a.Reducible g p.top x k) (hzero : k = 0 → x = Symbol.eof)
    (hend : ∀ r q m, k ≠ 0 → g.rules[k]? = some r → p.drop? r.rhs.length = some q →
      a.goto? q.top r.lhs = some m → t.Halts x (q.push m)) : t.Halts x p := by
  by_cases hstop : ∃ l, t.action? p.top x = some (.reduce l)
  · obtain ⟨l, hl⟩ := hstop
    rcases ht.eq_of_reducible hl hk with rfl | ⟨rfl, hx⟩
    · obtain ⟨r, q, m, -, hr, hdrop, -, -, hgoto, -, hpath⟩ := hp.exists_reducePath wf ha ht hl
      exact .reduce hl hpath (hend r q m (ht.of_reduce hl).1 hr hdrop hgoto)
    · exact absurd (hzero rfl) hx
  · exact .stop fun l hl => hstop ⟨l, hl⟩

/-- Where the rest of a core vanishes, the reductions under a lookahead of the core halt if they do so after
the reduction of its rule. -/
lemma halts_of_rest {x : Symbol} {c : Core} {r : Rule} (hr : g.rules[c.rule]? = some r)
    (hdot : c.dot ≤ r.rhs.length)
    (hrest : ∀ A ∈ r.rhs.drop c.dot, Nullable g.productions A ∧ Vanishes g a t x A) {p : Path}
    {ω : List Symbol} (hp : p.Spells a ω) (hlooks : LooksAt a.states p.top c x) (hzero : c.rule = 0 → x = Symbol.eof)
    (hend : ∀ q m, c.rule ≠ 0 → p.drop? c.dot = some q → a.goto? q.top r.lhs = some m →
      t.Halts x (q.push m)) : t.Halts x p := by
  generalize hu : r.rhs.drop c.dot = u at hrest
  induction u generalizing c p ω with
  | nil =>
    have hlength : c.dot = r.rhs.length := Nat.le_antisymm hdot (List.drop_eq_nil_iff.1 hu)
    refine halts_of_reducible wf ha ht hp ⟨c, r, rfl, ⟨hr, hlength⟩, hlooks⟩ hzero ?_
    intro r' q m hne hr' hdrop hgoto
    obtain rfl := Option.some.inj (hr.symm.trans hr')
    exact hend q m hne (hlength ▸ hdrop) hgoto
  | cons A u ih =>
    obtain ⟨⟨-, hvanishes⟩, htail⟩ := List.forall_mem_cons.1 hrest
    have hm : g.Marks c A u := ⟨r, hr, hu⟩
    have hreaches := ha.reaches hlooks.hasAt
    obtain ⟨m, hgoto⟩ := ha.explored.exists_target ⟨c, u, hreaches, hm⟩
    refine hvanishes hp hreaches hm ?_ hgoto ?_
    · rintro k r' hr' rfl
      exact ha.expand hlooks ⟨r', hr', hm⟩ (leads_self (fun B hB => (htail B hB).1) x)
    · obtain ⟨r', hr', hget, hdrop⟩ := hm.getElem?
      obtain rfl := Option.some.inj (hr.symm.trans hr')
      have hlt := (List.getElem?_eq_some_iff.1 hget).1
      refine ih (c := c.advance) hr hlt (.push hp hgoto) (ha.advance wf hlooks hm hgoto) hzero ?_ hdrop htail
      intro q m' hne hq hgoto'
      exact hend q m' hne (by simpa [Core.advance, Path.drop?] using hq) hgoto'

/-- Nullable symbols vanish. -/
lemma vanishes_of_nullable (hlive : a.Live g) {x A : Symbol} (hA : Nullable g.productions A) :
    Vanishes g a t x A := by
  induction hA with
  | @of_production A ω' hproduction hω ih =>
    intro p ω c rest m hp hreaches hm hlooks hgoto hhalts
    obtain ⟨k, r, hr, rfl, rfl⟩ := Augmented.mem_productions.1 hproduction
    have hne : k ≠ 0 := hlive.ne_zero_of_opens wf hreaches ⟨r, hr, hm⟩
    refine halts_of_rest wf ha ht (c := ⟨k, 0⟩) hr (Nat.zero_le _) (fun B hB => ⟨hω B hB, ih B hB⟩) hp
      (hlooks k r hr rfl) (fun hzero => absurd hzero hne) ?_
    intro q m' _ hdrop hgoto'
    obtain rfl := Option.some.inj hdrop
    obtain rfl := Option.some.inj (hgoto.symm.trans hgoto')
    exact hhalts

/-- Where a symbol begins what comes after a dot, the reductions under it halt. -/
lemma halts_of_starts (hlive : a.Live g) {x : Symbol} {u : Body} (h : Starts g.productions g.kinds u x)
    {p : Path} {ω : List Symbol} {c : Core} {r : Rule} (hp : p.Spells a ω) (hc : g.Reaches (KernelAt a.states p.top) c)
    (hr : g.rules[c.rule]? = some r) (hu : r.rhs.drop c.dot = u) : t.Halts x p := by
  induction h generalizing p ω c r with
  | @terminal x u _ =>
    -- the symbol can be shifted, and shifting goes before reducing
    obtain ⟨m, hgoto⟩ := ha.explored.exists_target ⟨c, u, hc, r, hr, hu⟩
    refine .stop fun k hk => ?_
    rw [(ht.of_reduce hk).2.1] at hgoto
    cases hgoto
  | @expand A x ω' u hproduction _ ih =>
    obtain ⟨k, r', hr', rfl, rfl⟩ := Augmented.mem_productions.1 hproduction
    exact ih hp (.expand hc ⟨r', hr', r, hr, hu⟩) (c := ⟨k, 0⟩) hr' rfl
  | @skip A x u hA hx ih =>
    have hm : g.Marks c A u := ⟨r, hr, hu⟩
    obtain ⟨y, hy⟩ := hlive.exists_looksAt hc
    obtain ⟨m, hgoto⟩ := ha.explored.exists_target ⟨c, u, hc, hm⟩
    refine vanishes_of_nullable wf ha ht hlive hA hp hc hm ?_ hgoto ?_
    · rintro k r' hr' rfl
      exact ha.expand hy ⟨r', hr', hm⟩ (Or.inl hx)
    · have hkernel : KernelAt a.states m c.advance :=
        ((ha.explored.target hgoto).2.2.2 _).2 ⟨c, u, hc, hm, rfl⟩
      obtain ⟨r', hr', -, hdrop⟩ := hm.getElem?
      obtain rfl := Option.some.inj (hr.symm.trans hr')
      exact ih (.push hp hgoto) (.kernel hkernel) (c := c.advance) hr hdrop

/-! ### All chains -/

/-- The reductions halt if they do so once they have come back below a kernel core whose rest vanishes, up to
its dot. -/
lemma halts_of_back (hlive : a.Live g) {x : Symbol} {p : Path} {ω : List Symbol} (hp : p.Spells a ω)
    (hback : ∀ (k : Core) (r : Rule) (q : Path) (m : Nat) (ω' : List Symbol), KernelAt a.states p.top k →
      k.rule ≠ 0 → g.rules[k.rule]? = some r → 0 < k.dot → k.dot ≤ r.rhs.length →
      (∀ A ∈ r.rhs.drop k.dot, Nullable g.productions A) → ω = (r.rhs.take k.dot).reverse ++ ω' →
      q.Spells a ω' → a.goto? q.top r.lhs = some m → t.Halts x (q.push m)) : t.Halts x p := by
  by_cases hstop : ∃ k, t.action? p.top x = some (.reduce k)
  · obtain ⟨k, hk⟩ := hstop
    obtain ⟨-, -, c, r, rfl, ⟨hr, hdot⟩, hlooks⟩ := ht.of_reduce hk
    have hcloses := ha.looksAt_iff_closes.1 hlooks
    rcases exists_kernel_of_closes (fun _ _ hl => hl.1) hcloses hr (by simp [hdot]) with
      ⟨d, r', hd, hr', hstarts⟩ | ⟨k, r', hk, hr', hnull⟩
    · exact halts_of_starts wf ha ht hlive hstarts hp hd hr' rfl
    · have hlooks : LooksAt a.states p.top k x := ha.looksAt_iff_closes.2 (.seed hk)
      obtain ⟨r₁, hr₁, hdot⟩ := ha.explored.valid hk.1
      obtain rfl := Option.some.inj (hr'.symm.trans hr₁)
      refine halts_of_rest wf ha ht hr' hdot
        (fun A hA => ⟨hnull A hA, vanishes_of_nullable wf ha ht hlive (hnull A hA)⟩) hp hlooks
        (hlive.eq_eof wf ha hlooks) ?_
      intro q m hne hdrop hgoto
      obtain ⟨q', ω', hdrop', hω, hq, -⟩ := hp.exists_drop? ha.explored hr' (.kernel hk.1)
      obtain rfl := Option.some.inj (hdrop.symm.trans hdrop')
      have hpos : 0 < k.dot := by
        rcases ha.explored.kernel_cases hk.1 with ⟨-, rfl⟩ | ⟨-, d, rfl⟩
        · exact absurd rfl hne
        · exact Nat.succ_pos _
      exact hback k r' q m ω' hk.1 hne hr' hpos hdot hnull hω hq hgoto
  · exact .stop fun k hk => hstop ⟨k, hk⟩

/-- Where the replacement of a single symbol by the left-hand side of its rule cannot go on for ever, the
reductions under every symbol halt on every path through the automaton. -/
theorem halts_of_spells (hlive : a.Live g) {R : Symbol → Symbol → Prop} (hR : WellFounded R)
    (hreplaces : ∀ {n k : Nat} {r : Rule} {X : Symbol} {γ : Body}, KernelAt a.states n ⟨k, 1⟩ → k ≠ 0 →
      g.rules[k]? = some r → r.rhs = X :: γ → (∀ A ∈ γ, Nullable g.productions A) → R r.lhs X)
    (x : Symbol) {p : Path} {ω : List Symbol} (hp : p.Spells a ω) : t.Halts x p := by
  induction hn : ω.length using Nat.strong_induction_on generalizing p ω with
  | _ n ih =>
    cases ω with
    | nil =>
      refine halts_of_back wf ha ht hlive hp fun k r q m ω' _ _ _ hpos hdot _ hω _ _ => ?_
      have hlength := congrArg List.length hω
      simp only [List.length_nil, List.length_append, List.length_reverse, List.length_take] at hlength
      omega
    | cons X ω =>
      induction X using hR.induction generalizing p with
      | _ X ihX =>
        refine halts_of_back wf ha ht hlive hp fun k r q m ω' hk hne hr hpos hdot hnull hω hq hgoto => ?_
        have hpush : (q.push m).Spells a (r.lhs :: ω') := .push hq hgoto
        by_cases hone : k.dot = 1
        · -- the depth stays the same, and the left-hand side takes the place of the symbol
          obtain ⟨k, dot⟩ := k
          obtain rfl : dot = 1 := hone
          obtain ⟨Y, γ, hrhs⟩ := List.exists_cons_of_length_pos hdot
          simp only [hrhs, List.take_succ_cons, List.take_zero, List.reverse_singleton, List.singleton_append,
            List.cons.injEq, List.drop_succ_cons, List.drop_zero] at hω hnull
          obtain ⟨rfl, rfl⟩ := hω
          exact ihX r.lhs (hreplaces hk hne hr hrhs hnull) hpush hn
        · have hlength := congrArg List.length hω
          simp only [List.length_cons, List.length_append, List.length_reverse,
            List.length_take] at hlength hn
          exact ih _ (by simp only [List.length_cons]; omega) hpush rfl

end

end Automaton

/-! ### Grammars whose symbols derive terminals -/

/-- The first symbol has a body that begins with the second one and whose rest derives the empty string. -/
def StandsFor (ps : List (Symbol × Body)) (A X : Symbol) : Prop :=
  ∃ rest, (A, X :: rest) ∈ ps ∧ Derives ps rest []

/-- The number of a symbol, as one of the numbers of a 32-bit word. -/
def Symbol.toFin (s : Symbol) : Fin UInt32.size := s.id.toUInt32.toFin

/-- Different symbols have different numbers. -/
lemma Symbol.toFin_injective : Function.Injective Symbol.toFin := by
  rintro ⟨⟨i⟩⟩ ⟨⟨j⟩⟩ h
  obtain rfl : i = j := UInt32.toFin_inj.1 h
  rfl

/-- There are finitely many symbols. -/
instance : Finite Symbol := Finite.of_injective Symbol.toFin Symbol.toFin_injective

namespace Grammar

/-- The symbol occurs in a string that the start symbol derives. -/
def Occurs (grammar : Grammar) (A : Symbol) : Prop :=
  ∃ before after, Derives grammar.productions [grammar.start] (before ++ A :: after)

variable {grammar : Grammar} {g : Augmented} {a : Automaton}

/-- The start symbol occurs. -/
lemma occurs_start : grammar.Occurs grammar.start := ⟨[], [], .refl⟩

/-- The symbols of the bodies of a symbol that occurs do so too. -/
lemma Occurs.of_production {A X : Symbol} {ω : Body} (h : grammar.Occurs A)
    (hp : (A, ω) ∈ grammar.productions) (hX : X ∈ ω) : grammar.Occurs X := by
  obtain ⟨before, after, hderives⟩ := h
  obtain ⟨left, right, rfl⟩ := List.append_of_mem hX
  refine ⟨before ++ left, right ++ after, hderives.tail ⟨_, hp, before, after, rfl, ?_⟩⟩
  simp

/-- A symbol that occurs is the start symbol or stands in a body. -/
lemma Occurs.eq_start_or_mem {A : Symbol} (h : grammar.Occurs A) :
    A = grammar.start ∨ ∃ p ∈ grammar.productions, A ∈ p.2 := by
  obtain ⟨before, after, hderives⟩ := h
  have hmem : A ∈ before ++ A :: after := by simp
  generalize before ++ A :: after = w at hderives hmem
  induction hderives with
  | refl => exact Or.inl (List.mem_singleton.1 hmem)
  | tail _ hs ih =>
    obtain ⟨p, hp, left, right, rfl, rfl⟩ := hs
    rcases List.mem_append.1 hmem with hmem | hmem
    · rcases List.mem_append.1 hmem with hmem | hmem
      · exact ih (by simp [hmem])
      · exact Or.inr ⟨p, hp, hmem⟩
    · exact ih (by simp [hmem])

/-- A symbol that occurs is declared. -/
lemma Occurs.mem_classification (hdefects : grammar.defects = []) {A : Symbol} (h : grammar.Occurs A) :
    A ∈ grammar.classification := by
  rcases h.eq_start_or_mem with rfl | ⟨p, hp, hA⟩
  · have hrole : (Role.start, grammar.start, Kind.nonterminal) ∈ grammar.roles := by simp [roles]
    exact Kinds.mem_iff_exists.2 ⟨_, kind_of_role hrole hdefects⟩
  · exact (kinds_of_production hdefects hp).2 A hA

/-- Where the symbols that occur derive terminals, the initial symbol does not occur. -/
lemma not_occurs_init (haugment : grammar.augment = .ok g)
    (hgenerates : ∀ A, grammar.classification.IsNonterminal A → grammar.Occurs A →
      Generates grammar.productions grammar.classification [A]) : ¬ grammar.Occurs grammar.init := by
  intro hoccurs
  obtain ⟨hdefects, hinit, -, hkinds, -⟩ := augment_eq_ok haugment
  have wf := wellFormed_of_augment haugment
  have hnonterminal : grammar.classification.IsNonterminal grammar.init :=
    hkinds ▸ hinit ▸ wf.isNonterminal_lhs wf.augmenting
  obtain ⟨w, hw, hterminal⟩ := hgenerates _ hnonterminal hoccurs
  rcases hw.cases_head with rfl | ⟨v, hs, -⟩
  · have hinit := hterminal grammar.init List.mem_cons_self
    rw [← hkinds] at hinit hnonterminal
    exact Augmented.not_isTerminal hnonterminal hinit
  · exact lhs_ne_init hdefects (rewrites_singleton_iff.1 hs) rfl

/-- Where the initial symbol does not occur, the given productions alone make a symbol vanish. -/
lemma nullable_of_augmented (haugment : grammar.augment = .ok g) (hinit : ¬ grammar.Occurs grammar.init)
    {A : Symbol} (hA : Nullable g.productions A) (hoccurs : grammar.Occurs A) :
    Nullable grammar.productions A := by
  induction hA with
  | @of_production A ω hp _ ih =>
    rcases List.mem_cons.1 ((mem_productions_iff haugment).1 hp) with heq | hmem
    · obtain ⟨rfl, -⟩ := Prod.mk.inj heq
      exact absurd hoccurs hinit
    · exact .of_production hmem fun X hX => ih X hX (hoccurs.of_production hmem hX)

/-! ### The symbols of the automaton occur -/

/-- The left-hand side of the rule of a core, the augmenting rule apart, occurs. -/
def OccursIn (grammar : Grammar) (g : Augmented) (c : Core) : Prop :=
  ∀ r, c.rule ≠ 0 → g.rules[c.rule]? = some r → grammar.Occurs r.lhs

/-- The symbols of the body of a core occur when the left-hand side does. -/
lemma OccursIn.of_mem (haugment : grammar.augment = .ok g) {c : Core} (h : grammar.OccursIn g c) {r : Rule}
    (hr : g.rules[c.rule]? = some r) {X : Symbol} (hX : X ∈ r.rhs) : grammar.Occurs X := by
  obtain ⟨-, -, hstart, -⟩ := augment_eq_ok haugment
  by_cases hzero : c.rule = 0
  · have wf := wellFormed_of_augment haugment
    rw [hzero] at hr
    obtain rfl := Option.some.inj (wf.augmenting.symm.trans hr)
    obtain rfl := List.mem_singleton.1 hX
    exact hstart ▸ occurs_start
  · exact (h r hzero hr).of_production (mem_productions_of_ne_zero haugment hzero hr) hX

/-- The symbol after a dot occurs when the left-hand side does. -/
lemma OccursIn.of_marks (haugment : grammar.augment = .ok g) {c : Core} (h : grammar.OccursIn g c)
    {X : Symbol} {rest : Body} (hm : g.Marks c X rest) : grammar.Occurs X ∧ ∀ Y ∈ rest, grammar.Occurs Y := by
  obtain ⟨r, hr, hdrop⟩ := hm
  have hall : ∀ Y ∈ X :: rest, grammar.Occurs Y := fun Y hY =>
    h.of_mem haugment hr (List.mem_of_mem_drop (hdrop ▸ hY))
  exact List.forall_mem_cons.1 hall

/-- The rules that states reach are rules of symbols that occur. -/
lemma occursIn_of_reaches (haugment : grammar.augment = .ok g) (ha : a.Explored g) {n : Nat} {c : Core}
    (hc : g.Reaches (KernelAt a.states n) c) : grammar.OccursIn g c := by
  refine ha.reaches_induction (P := fun _ c => grammar.OccursIn g c) ?_ ?_ ?_ hc
  · exact fun r hne => absurd rfl hne
  · rintro n i d rest - hd ⟨r, hr, hm⟩ r' - hr'
    obtain rfl := Option.some.inj (hr.symm.trans hr')
    exact (hd.of_marks haugment hm).1
  · intro n m d x rest hd _ _
    exact hd

/-- Where the initial symbol does not occur, it comes after no dot. -/
lemma not_marks_init_of_not_occurs (haugment : grammar.augment = .ok g) (ha : a.Explored g)
    (hinit : ¬ grammar.Occurs grammar.init) {n : Nat} {c : Core} {rest : Body}
    (hc : g.Reaches (KernelAt a.states n) c) : ¬ g.Marks c g.init rest := by
  intro hm
  obtain ⟨-, heq, -⟩ := augment_eq_ok haugment
  have hoccurs := ((occursIn_of_reaches haugment ha hc).of_marks haugment hm).1
  exact hinit (heq ▸ hoccurs)

/-- Without circles, symbols that occur cannot stand for one another for ever. -/
lemma wellFounded_standsFor
    (hacyclic : ∀ A, grammar.Occurs A → ¬ Relation.TransGen (StandsFor grammar.productions) A A) :
    WellFounded fun A X => grammar.Occurs A ∧ StandsFor grammar.productions A X := by
  set R : Symbol → Symbol → Prop := fun A X => grammar.Occurs A ∧ StandsFor grammar.productions A X
  have hirrefl : Std.Irrefl (Relation.TransGen R) := by
    refine ⟨fun A hA => ?_⟩
    obtain ⟨X, ⟨hoccurs, -⟩, -⟩ := Relation.TransGen.head'_iff.1 hA
    exact hacyclic A hoccurs (Relation.TransGen.mono (r := R) (fun _ _ h => h.2) A A hA)
  exact Subrelation.wf (fun h => .single h) (Finite.wellFounded_of_trans_of_irrefl (Relation.TransGen R))

/-- A string whose symbols occur derives terminals where the nonterminals that occur do. -/
lemma generates_of_occurs (haugment : grammar.augment = .ok g) {ps : List (Symbol × Body)}
    (hgenerates : ∀ A, grammar.classification.IsNonterminal A → grammar.Occurs A →
      Generates ps grammar.classification [A])
    {u : Body} (hu : ∀ X ∈ u, grammar.Occurs X) : Generates ps grammar.classification u := by
  obtain ⟨hdefects, -⟩ := augment_eq_ok haugment
  refine generates_of_forall fun X hX => ?_
  obtain ⟨kind, hkind⟩ := Kinds.mem_iff_exists.1 ((hu X hX).mem_classification hdefects)
  cases kind with
  | terminal => exact generates_terminal hkind
  | nonterminal => exact hgenerates X hkind (hu X hX)

/-- Where the nonterminals that occur derive terminals, every core that a state reaches has a lookahead. -/
lemma exists_looksAt_of_reaches (haugment : grammar.augment = .ok g)
    (hgenerates : ∀ A, grammar.classification.IsNonterminal A → grammar.Occurs A →
      Generates grammar.augmentedProductions grammar.classification [A])
    (ha : a.Closed g) {n : Nat} {c : Core} (hc : g.Reaches (KernelAt a.states n) c) :
    ∃ y, LooksAt a.states n c y := by
  have wf := wellFormed_of_augment haugment
  obtain ⟨-, -, -, hkinds, -⟩ := augment_eq_ok haugment
  refine ha.explored.reaches_induction (P := fun n c => ∃ y, LooksAt a.states n c y) ⟨_, ha.start⟩ ?_ ?_ hc
  · rintro n i d rest hd ⟨y, hy⟩ ho
    obtain ⟨r, -, hm⟩ := id ho
    have hoccurs := ((occursIn_of_reaches haugment ha.explored hd).of_marks haugment hm).2
    have hrest : Generates g.productions g.kinds rest := by
      rw [hkinds]
      exact (generates_of_occurs haugment hgenerates hoccurs).mono fun p hp => (mem_productions_iff haugment).2 hp
    obtain ⟨x, hx⟩ := hrest.exists_leads y
    exact ⟨x, ha.expand hy ho hx⟩
  · rintro n m d x rest ⟨y, hy⟩ hm hgoto
    exact ⟨y, ha.advance wf hy hm hgoto⟩

section

variable (haugment : grammar.augment = .ok g)
  (hgenerates : ∀ A, grammar.classification.IsNonterminal A → grammar.Occurs A →
    Generates grammar.productions grammar.classification [A])
include haugment hgenerates

/-- The automaton is live. -/
lemma live_of_generates (ha : a.Closed g) : a.Live g where
  exists_looksAt := exists_looksAt_of_reaches haugment
    (fun A hA hoccurs => (hgenerates A hA hoccurs).mono (List.subset_cons_self _ _)) ha
  not_marks_init hc :=
    not_marks_init_of_not_occurs haugment ha.explored (not_occurs_init haugment hgenerates) hc

/-- On every path through the automaton, the reductions under every symbol come to an end. -/
lemma halts_of_acyclic (ha : a.Closed g) {t : Table} (ht : t.Fits g a)
    (hacyclic : ∀ A, grammar.Occurs A → ¬ Relation.TransGen (StandsFor grammar.productions) A A)
    (x : Symbol) {p : Path} {ω : List Symbol} (hp : p.Spells a ω) : t.Halts x p := by
  have wf := wellFormed_of_augment haugment
  have hlive := live_of_generates haugment hgenerates ha
  have hinit := not_occurs_init haugment hgenerates
  refine Automaton.halts_of_spells wf ha ht hlive (wellFounded_standsFor hacyclic) ?_ x hp
  intro n k r X γ hk hne hr hrhs hnull
  have hoccurs := occursIn_of_reaches haugment ha.explored (.kernel hk)
  have hproduction := mem_productions_of_ne_zero haugment hne hr
  refine ⟨hoccurs r hne hr, γ, hrhs ▸ hproduction, forall_nullable_iff.1 fun A hA => ?_⟩
  refine nullable_of_augmented haugment hinit (hnull A hA) (hoccurs.of_mem haugment hr ?_)
  rw [hrhs]
  exact List.mem_cons_of_mem X hA

end

end Grammar

end Lalr
