import Lalr.Proofs.Driving
import Lalr.Proofs.Rows
import Lalr.Proofs.Termination

/-!
# Trying symbols on a table

Trying a symbol follows reductions up to a shift, to acceptance, or to a cell with neither.  `Table.Takes` says
without fuel that the reductions lead to one of the first two, and a trial that returns finds out whether they do
(`Table.isSome_iff_takes`).  The search for the symbols that fit tries those of the current row only, but no other
symbol could be taken; it therefore returns exactly the symbols that are taken, each once and in ascending order
(`Table.exists_expected_eq_takes`).

What a table does on a path is determined.  `Table.Shifts` shifts a string symbol by symbol, each after the
reductions under it, and there is at most one path at its end (`Table.Shifts.unique`).
-/

namespace Lalr

namespace Table

variable {t : Table} {x : Symbol} {p q : Path}

/-! ### Symbols that are taken -/

/-- A path has at most one reduction under a symbol. -/
lemma rightUnique_reducesPath : Relator.RightUnique (t.ReducesPath x) := by
  rintro p q r ⟨k, hk, hq⟩ ⟨l, hl, hr⟩
  obtain rfl := Action.reduce.inj (Option.some.inj (hk.symm.trans hl))
  exact Except.ok.inj (hq.symm.trans hr)

/-- The table shifts or accepts. -/
def Stops (t : Table) (x : Symbol) (p : Path) : Prop :=
  (∃ m, t.action? p.top x = some (.shift m)) ∨ t.action? p.top x = some .accept

/-- Where the table shifts or accepts, it does not reduce. -/
lemma Stops.not_reducesPath (h : t.Stops x p) : ¬ t.ReducesPath x p q := by
  rintro ⟨k, hk, -⟩
  rcases h with ⟨m, hm⟩ | haccept
  · cases hk.symm.trans hm
  · cases hk.symm.trans haccept

/-- Two chains of reductions up to a shift or to acceptance end in the same path. -/
lemma Stops.unique {r : Path} (hq : Relation.ReflTransGen (t.ReducesPath x) p q) (hq' : t.Stops x q)
    (hr : Relation.ReflTransGen (t.ReducesPath x) p r) (hr' : t.Stops x r) : q = r := by
  have hlast {q r : Path} (hq : t.Stops x q) (h : Relation.ReflTransGen (t.ReducesPath x) q r) : q = r := by
    rcases h.cases_head with heq | ⟨s, hs, -⟩
    · exact heq
    · exact absurd hs hq.not_reducesPath
  rcases hq.total_of_right_unique rightUnique_reducesPath hr with h | h
  · exact hlast hq' h
  · exact (hlast hr' h).symm

/-- The reductions under the symbol lead to a shift or to acceptance. -/
def Takes (t : Table) (x : Symbol) (p : Path) : Prop :=
  ∃ q, Relation.ReflTransGen (t.ReducesPath x) p q ∧ t.Stops x q

/-- A symbol is taken before a reduction under it exactly when it is taken after it. -/
lemma ReducesPath.takes_iff (h : t.ReducesPath x p q) : t.Takes x q ↔ t.Takes x p := by
  constructor
  · rintro ⟨r, hchain, hstops⟩
    exact ⟨r, .head h hchain, hstops⟩
  · rintro ⟨r, hchain, hstops⟩
    rcases hchain.cases_head with rfl | ⟨q', hq', hrest⟩
    · exact absurd h hstops.not_reducesPath
    · obtain rfl := rightUnique_reducesPath h hq'
      exact ⟨r, hrest, hstops⟩

/-- A trial that returns finds out whether the symbol is taken. -/
lemma isSome_iff_takes {fuel peak : Nat} {result : Option Nat}
    (h : t.simulateFrom x fuel p peak = .ok result) : result.isSome = true ↔ t.Takes x p := by
  induction fuel generalizing p peak with
  | zero => cases h
  | succ fuel ih =>
    rw [simulateFrom] at h
    split at h
    · rename_i m haction
      obtain rfl := Except.ok.inj h
      exact ⟨fun _ => ⟨p, .refl, Or.inl ⟨m, haction⟩⟩, fun _ => rfl⟩
    · rename_i haction
      obtain rfl := Except.ok.inj h
      exact ⟨fun _ => ⟨p, .refl, Or.inr haction⟩, fun _ => rfl⟩
    · rename_i k haction
      obtain ⟨q, hpath, hrest⟩ := bind_eq_ok.1 h
      have hreduces : t.ReducesPath x p q := ⟨k, haction, hpath⟩
      rw [ih hrest, hreduces.takes_iff]
    · rename_i hshift haccept hreduce
      obtain rfl := Except.ok.inj h
      constructor
      · intro hsome
        cases hsome
      · rintro ⟨q, hchain, hstops⟩
        rcases hchain.cases_head with rfl | ⟨r, ⟨k, hk, -⟩, -⟩
        · rcases hstops with ⟨m, hm⟩ | haction
          · exact absurd hm (hshift m)
          · exact absurd haction haccept
        · exact absurd hk (hreduce k)

/-- A symbol that is taken has an action in the current row, and it is no goto. -/
lemma Takes.exists_action (h : t.Takes x p) :
    ∃ action, t.action? p.top x = some action ∧ ∀ m, action ≠ .goto m := by
  obtain ⟨q, hchain, hstops⟩ := h
  rcases hchain.cases_head with rfl | ⟨r, ⟨k, hk, -⟩, -⟩
  · rcases hstops with ⟨m, hm⟩ | haccept
    · exact ⟨_, hm, nofun⟩
    · exact ⟨_, haccept, nofun⟩
  · exact ⟨_, hk, nofun⟩

/-! ### The search for the symbols that fit -/

/-- Keeping or dropping the elements of a list one by one leaves a sublist. -/
lemma sublist_of_forall₂ {α : Type} {xs : List α} {ys : List (Option α)}
    (h : List.Forall₂ (fun x y => y = some x ∨ y = none) xs ys) : (ys.filterMap id).Sublist xs := by
  induction h with
  | nil => exact .slnil
  | cons hxy _ ih =>
    rcases hxy with rfl | rfl
    · exact ih.cons_cons _
    · exact ih.cons _

/-- The symbols that are found are in ascending order, and they are those that are taken. -/
lemma expected_eq_ok {fuel : Nat} {symbols : List Symbol} (h : t.expected fuel p = .ok symbols) :
    symbols.Pairwise (fun a b => a.id < b.id) ∧ ∀ x, x ∈ symbols ↔ t.Takes x p := by
  obtain ⟨tried, htried, hsymbols⟩ := bind_eq_ok.1 h
  obtain rfl := Except.ok.inj hsymbols
  change (t.candidates p.top).mapM _ = _ at htried
  have htrial {y : Symbol} {answer : Option Symbol}
      (hy : (do let peak ← t.simulate fuel p y; Except.ok (if peak.isSome then some y else none)) = .ok answer) :
      answer = some y ∧ t.Takes y p ∨ answer = none ∧ ¬ t.Takes y p := by
    obtain ⟨peak, hpeak, hanswer⟩ := bind_eq_ok.1 hy
    obtain rfl := Except.ok.inj hanswer
    rw [← isSome_iff_takes hpeak]
    cases peak with
    | none => exact Or.inr ⟨rfl, nofun⟩
    | some depth => exact Or.inl ⟨rfl, rfl⟩
  constructor
  · have hsublist : (tried.filterMap id).Sublist (t.candidates p.top) :=
      sublist_of_forall₂ ((mapM_eq_ok.1 htried).imp fun y answer hy => (htrial hy).imp And.left And.left)
    exact (t.pairwise_candidates p.top).sublist hsublist
  · intro x
    rw [List.mem_filterMap]
    constructor
    · rintro ⟨answer, hmem, heq⟩
      obtain ⟨y, -, hy⟩ := (mem_of_mapM_eq_ok htried).1 hmem
      rcases htrial hy with ⟨rfl, htakes⟩ | ⟨rfl, -⟩
      · obtain rfl := Option.some.inj heq
        exact htakes
      · cases heq
    · intro htakes
      have hcandidate : x ∈ t.candidates p.top := mem_candidates.2 htakes.exists_action
      obtain ⟨answer, hmem, hanswer⟩ := exists_mem_of_mapM_eq_ok htried hcandidate
      rcases htrial hanswer with ⟨rfl, -⟩ | ⟨-, hnot⟩
      · exact ⟨some x, hmem, rfl⟩
      · exact absurd htakes hnot

/-- Where the reductions under every symbol come to an end, the search for the symbols that fit finds, with enough
fuel, exactly those that are taken, in ascending order, and any other symbol does not fit. -/
lemma exists_expected_eq_takes (h : ∀ x, t.Halts x p) :
    ∃ symbols bound, symbols.Pairwise (fun a b => a.id < b.id) ∧ (∀ x, x ∈ symbols ↔ t.Takes x p) ∧
      ∀ fuel ≥ bound, t.expected fuel p = .ok symbols ∧
        ∀ x, x ∉ symbols → t.simulate fuel p x = .ok none := by
  obtain ⟨bound, hbound⟩ := exists_simulate_eq_ok h
  obtain ⟨symbols, hsymbols⟩ := exists_expected_eq_ok (hbound bound le_rfl)
  obtain ⟨hsorted, hmem⟩ := expected_eq_ok hsymbols
  refine ⟨symbols, bound, hsorted, hmem, fun fuel hfuel => ⟨?_, fun x hx => ?_⟩⟩
  · obtain ⟨symbols', hsymbols'⟩ := exists_expected_eq_ok (hbound fuel hfuel)
    obtain ⟨hsorted', hmem'⟩ := expected_eq_ok hsymbols'
    rw [hsymbols', eq_of_pairwise_id_lt hsorted' hsorted fun x => (hmem' x).trans (hmem x).symm]
  · obtain ⟨result, hresult⟩ := hbound fuel hfuel x
    cases result with
    | none => exact hresult
    | some peak => exact absurd ((hmem x).2 ((isSome_iff_takes hresult).1 rfl)) hx

/-! ### Shifting a string -/

/-- The table shifts the symbols of the string one after the other, each after the reductions under it. -/
inductive Shifts (t : Table) : Path → List Symbol → Path → Prop
  /-- Nothing is left to shift. -/
  | nil {p : Path} : Shifts t p [] p
  /-- The first symbol is shifted, and then the others. -/
  | cons {p q r : Path} {x : Symbol} {xs : List Symbol} {m : Nat}
      (h : Relation.ReflTransGen (t.ReducesPath x) p q) (hshift : t.action? q.top x = some (.shift m))
      (hrest : Shifts t (q.push m) xs r) : Shifts t p (x :: xs) r

namespace Shifts

variable {xs ys : List Symbol} {r : Path}

/-- Shifting a string leads to one path only. -/
lemma unique (h : t.Shifts p xs q) (h' : t.Shifts p xs r) : q = r := by
  induction h with
  | nil =>
    cases h'
    rfl
  | cons hchain hshift _ ih =>
    cases h' with
    | cons hchain' hshift' hrest' =>
      obtain rfl := Stops.unique hchain (Or.inl ⟨_, hshift⟩) hchain' (Or.inl ⟨_, hshift'⟩)
      obtain rfl := Action.shift.inj (Option.some.inj (hshift.symm.trans hshift'))
      exact ih hrest'

/-- A string is shifted part by part. -/
lemma exists_of_append (h : t.Shifts p (xs ++ ys) r) : ∃ q, t.Shifts p xs q ∧ t.Shifts q ys r := by
  induction xs generalizing p with
  | nil => exact ⟨p, .nil, h⟩
  | cons x xs ih =>
    cases h with
    | cons hchain hshift hrest =>
      obtain ⟨q, hq, hr⟩ := ih hrest
      exact ⟨q, .cons hchain hshift hq, hr⟩

/-- One more symbol is shifted at the end. -/
lemma concat (h : t.Shifts p xs q) (hchain : Relation.ReflTransGen (t.ReducesPath x) q r) {m : Nat}
    (hshift : t.action? r.top x = some (.shift m)) : t.Shifts p (xs ++ [x]) (r.push m) := by
  induction h with
  | nil => exact .cons hchain hshift .nil
  | cons hchain' hshift' _ ih => exact .cons hchain' hshift' (ih hchain)

end Shifts

/-- A run on tokens up to the end of input shifts their symbols. -/
lemma Feeds.exists_shifts {s s' : Stack Tree} {tokens : List Token} (h : t.Feeds s tokens s') :
    ∃ q, t.Shifts s.path (tokens.map Token.symbol) q ∧
      Relation.ReflTransGen (t.ReducesPath Symbol.eof) q s'.path := by
  have hpath {x : Symbol} {s s' : Stack Tree} (h : Relation.ReflTransGen (t.Reduces x) s s') :
      Relation.ReflTransGen (t.ReducesPath x) s.path s'.path :=
    h.lift Stack.path fun _ _ hreduces => hreduces.exists_reducePath
  induction h with
  | nil h => exact ⟨_, .nil, hpath h⟩
  | cons h hshift _ ih =>
    obtain ⟨q, hq, hend⟩ := ih
    exact ⟨q, .cons (hpath h) hshift hq, hend⟩

end Table

end Lalr
