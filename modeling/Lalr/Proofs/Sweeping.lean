import Lalr.Proofs.LeastAnalysis

/-!
# Analysing in place

A rule makes demands on an analysis, one for each pair of sets of which one has to contain the other
(`Rule.demands`).  `Analysis.sweep` meets the demands of rules one after the other, in place and in order, and notes
each time whether anything new has come up.  Repeating sweeps until one of them notes nothing, with the notes for an
answer, is `Analysis.saturate`.

A demand finds nothing new exactly when it is met, and then meeting it changes nothing.  Hence what a sweep notes
tells whether it has changed anything (`Analysis.sweep_spec`), and the sweeps come to rest at the least closed
analysis, which is the outcome of `Analysis.compute`.
-/

namespace Lalr

/-! ### The demands of a rule -/

/-- The ways to pick one element of a list: what stands before it, the element, and what stands behind it. -/
def splits {α : Type} : List α → List (List α × α × List α)
  | [] => []
  | x :: rest => ([], x, rest) :: (splits rest).map fun (before, y, after) => (x :: before, y, after)

/-- Each way to pick an element is listed. -/
lemma mem_splits {α : Type} {xs before after : List α} {x : α} :
    (before, x, after) ∈ splits xs ↔ xs = before ++ x :: after := by
  induction xs generalizing before with
  | nil => simp [splits]
  | cons y xs ih =>
    rw [splits, List.mem_cons, List.mem_map]
    cases before with
    | nil => simp [Prod.ext_iff, eq_comm]
    | cons z before => simp [ih, and_comm]

/-- A demand that a rule makes on an analysis. -/
inductive Demand where
  /-- `A` is nullable when all of `body` is. -/
  | nullable (A : Symbol) (body : Body)
  /-- What begins `s` begins `A` when all of `before` is nullable. -/
  | first (A : Symbol) (before : Body) (s : Symbol)
  /-- What follows `A` follows `s` when all of `rest` is nullable. -/
  | inherit (A s : Symbol) (rest : Body)
  /-- What begins `u` follows `s` when all of `between` is nullable. -/
  | meet (s : Symbol) (between : Body) (u : Symbol)

namespace Demand

/-- The symbol whose facts the demand is about. -/
def target : Demand → Symbol
  | nullable A _ => A
  | first A _ _ => A
  | inherit _ s _ => s
  | meet s _ _ => s

/-- The demand is met. -/
def Holds (a : Analysis) : Demand → Prop
  | nullable A body => a.allNullable body = true → a.nullable A = true
  | first A before s => a.allNullable before = true → ∀ t ∈ a.first s, t ∈ a.first A
  | inherit A s rest => a.allNullable rest = true → ∀ t ∈ a.follow A, t ∈ a.follow s
  | meet s between u => a.allNullable between = true → ∀ t ∈ a.first u, t ∈ a.follow s

/-- Adds what the demand asks for. -/
def update (a : Analysis) : Demand → Analysis
  | nullable A body => if a.allNullable body then a.markNullable A else a
  | first A before s => if a.allNullable before then a.addFirst A (a.first s) else a
  | inherit A s rest => if a.allNullable rest then a.addFollow s (a.follow A) else a
  | meet s between u => if a.allNullable between then a.addFollow s (a.first u) else a

/-- Whether the demand asks for anything new: for a symbol that is not nullable yet, or for members that make a
set larger. -/
def finds (a : Analysis) : Demand → Bool
  | nullable A body => !a.nullable A && a.allNullable body
  | first A before s => a.allNullable before && (a.first A).size < (a.first A ∪ a.first s).size
  | inherit A s rest => a.allNullable rest && (a.follow s).size < (a.follow s ∪ a.follow A).size
  | meet s between u => a.allNullable between && (a.follow s).size < (a.follow s ∪ a.first u).size

end Demand

/-- The demands of a rule, symbol by symbol of its body. -/
def Rule.demands (r : Rule) : List Demand :=
  .nullable r.lhs r.rhs :: (splits r.rhs).flatMap fun (before, s, rest) =>
    .first r.lhs before s :: .inherit r.lhs s rest ::
      (splits rest).map fun (between, u, _) => .meet s between u

namespace Analysis

/-- Meets demands one after the other, and notes whether one of them has found anything new. -/
def sweep : List Demand → Analysis → Analysis × Bool
  | [], a => (a, false)
  | d :: demands, a =>
    let (b, grew) := sweep demands (d.update a)
    (b, d.finds a || grew)

/-- Sweeps an analysis until nothing new is found, with `eof` following `start`, and says whether the end of input
or any of the sweeps has been new. -/
def saturate (a : Analysis) (start eof : Symbol) (rules : List Rule) : Except Fault (Analysis × Bool) := do
  let seeded := a.addFollow start {eof}
  let (b, sweeps) ← settle (fun x => .ok (sweep (rules.flatMap Rule.demands) x)) seeded.fuel seeded
  .ok (b, eof ∉ a.follow start || 1 < sweeps)

end Analysis

/-- A union is larger than its first part when the second one has something new. -/
lemma SymbolSet.size_lt_size_union_iff {s t : SymbolSet} : s.size < (s ∪ t).size ↔ ¬ ∀ x ∈ t, x ∈ s := by
  constructor
  · intro hlt hsub
    have hle : (s ∪ t).size ≤ s.size := by
      apply SymbolSet.size_le_of_subset
      intro x hx
      exact (Std.ExtTreeSet.mem_union_iff.1 hx).elim id (hsub x)
    omega
  · intro hnew
    apply SymbolSet.size_lt_size_union
    rwa [SymbolSet.subset_iff]

namespace Demand

variable {a c : Analysis}

/-- A demand finds nothing new when it is met. -/
lemma finds_eq_false_iff {d : Demand} : d.finds a = false ↔ d.Holds a := by
  have hset {body : Body} {s t : SymbolSet} :
      (a.allNullable body && decide (s.size < (s ∪ t).size)) = false ↔
        (a.allNullable body = true → ∀ x ∈ t, x ∈ s) := by
    rw [Bool.and_eq_false_imp, decide_eq_false_iff_not, SymbolSet.size_lt_size_union_iff, not_not]
  cases d with
  | nullable A body =>
    change (!a.nullable A && a.allNullable body) = false ↔ (a.allNullable body = true → a.nullable A = true)
    cases a.nullable A <;> simp
  | first A before s => exact hset
  | inherit A s rest => exact hset
  | meet s between u => exact hset

/-- Meeting a demand adds to the analysis. -/
lemma grows_update (a : Analysis) (d : Demand) : Analysis.Grows a (d.update a) := by
  cases d with
  | nullable A body =>
    rw [update]
    split
    · exact Analysis.grows_markNullable a A
    · exact .refl a
  | first A before s =>
    rw [update]
    split
    · exact Analysis.grows_addFirst a A _
    · exact .refl a
  | inherit A s rest =>
    rw [update]
    split
    · exact Analysis.grows_addFollow a s _
    · exact .refl a
  | meet s between u =>
    rw [update]
    split
    · exact Analysis.grows_addFollow a s _
    · exact .refl a

/-- Meeting a demand stays below an analysis that meets it. -/
lemma update_grows {d : Demand} (h : Analysis.Grows a c) (hd : d.Holds c) : Analysis.Grows (d.update a) c := by
  cases d with
  | nullable A body =>
    rw [update]
    split
    · rename_i hbody
      exact h.markNullable (hd (h.below.allNullable hbody))
    · exact h
  | first A before s =>
    rw [update]
    split
    · rename_i hbefore
      apply h.addFirst
      intro t ht
      exact hd (h.below.allNullable hbefore) t (h.below.first s t ht)
    · exact h
  | inherit A s rest =>
    rw [update]
    split
    · rename_i hrest
      apply h.addFollow
      intro t ht
      exact hd (h.below.allNullable hrest) t (h.mem_follow ht)
    · exact h
  | meet s between u =>
    rw [update]
    split
    · rename_i hbetween
      apply h.addFollow
      intro t ht
      exact hd (h.below.allNullable hbetween) t (h.below.first u t ht)
    · exact h

/-- A demand about a symbol with facts that changes nothing is met. -/
lemma holds_of_update_eq {d : Demand} (htarget : d.target ∈ a.facts) (h : d.update a = a) : d.Holds a := by
  cases d with
  | nullable A body =>
    intro hbody
    rw [update, if_pos hbody] at h
    rw [← h]
    exact (Analysis.nullable_markNullable a A A).2 (Or.inr ⟨rfl, htarget⟩)
  | first A before s =>
    intro hbefore t ht
    rw [update, if_pos hbefore] at h
    rw [← h]
    exact (Analysis.mem_first_addFirst a A A t _).2 (Or.inr ⟨⟨rfl, htarget⟩, ht⟩)
  | inherit A s rest =>
    intro hrest t ht
    rw [update, if_pos hrest] at h
    rw [← h]
    exact (Analysis.mem_follow_addFollow a s s t _).2 (Or.inr ⟨⟨rfl, htarget⟩, ht⟩)
  | meet s between u =>
    intro hbetween t ht
    rw [update, if_pos hbetween] at h
    rw [← h]
    exact (Analysis.mem_follow_addFollow a s s t _).2 (Or.inr ⟨⟨rfl, htarget⟩, ht⟩)

/-- A demand about a symbol with facts finds something new exactly when it changes the analysis. -/
lemma finds_iff {d : Demand} (htarget : d.target ∈ a.facts) : d.finds a = true ↔ d.update a ≠ a := by
  rw [← Bool.not_eq_false, finds_eq_false_iff, not_iff_not]
  constructor
  · intro hd
    exact (update_grows (.refl a) hd).antisymm (grows_update a d)
  · exact holds_of_update_eq htarget

/-- The demands of a rule concern its symbols. -/
lemma mem_demands {r : Rule} {d : Demand} :
    d ∈ r.demands ↔ d = .nullable r.lhs r.rhs ∨ ∃ before s rest, r.rhs = before ++ s :: rest ∧
      (d = .first r.lhs before s ∨ d = .inherit r.lhs s rest ∨
        ∃ between u after, rest = between ++ u :: after ∧ d = .meet s between u) := by
  unfold Rule.demands
  simp only [List.mem_cons, List.mem_flatMap, List.mem_map, Prod.exists, mem_splits]
  refine or_congr_right ?_
  refine exists_congr fun before => exists_congr fun s => exists_congr fun rest => and_congr_right fun _ => ?_
  refine or_congr_right (or_congr_right ?_)
  refine exists_congr fun between => exists_congr fun u => exists_congr fun after => and_congr_right fun _ => ?_
  exact eq_comm

/-- The demands of a rule are about its symbols. -/
lemma target_mem {r : Rule} {d : Demand} (hd : d ∈ r.demands) : d.target ∈ r.lhs :: r.rhs := by
  rcases mem_demands.1 hd with rfl | ⟨before, s, rest, hsplit, rfl | rfl | ⟨between, u, after, -, rfl⟩⟩
  · exact List.mem_cons_self
  · exact List.mem_cons_self
  · simp [target, hsplit]
  · simp [target, hsplit]

end Demand

namespace Analysis

variable {start eof : Symbol} {rules : List Rule}

/-! ### Sweeps -/

/-- An analysis is closed exactly when the end of input follows the start symbol and the demands are met. -/
lemma closed_iff_holds {a : Analysis} :
    a.Closed (productionsOf rules) start eof ↔
      eof ∈ a.follow start ∧ ∀ d ∈ rules.flatMap Rule.demands, d.Holds a := by
  constructor
  · intro h
    refine ⟨h.eof_mem, ?_⟩
    intro d hd
    obtain ⟨r, hr, hd⟩ := List.mem_flatMap.1 hd
    have hp : (r.lhs, r.rhs) ∈ productionsOf rules := List.mem_map.2 ⟨r, hr, rfl⟩
    rcases Demand.mem_demands.1 hd with rfl | ⟨before, s, rest, hsplit, hcases⟩
    · intro hall
      exact h.nullable hp (allNullable_eq_true.1 hall)
    · rw [hsplit] at hp
      rcases hcases with rfl | rfl | ⟨between, u, after, rfl, rfl⟩
      · intro hall
        exact h.first hp (allNullable_eq_true.1 hall)
      · intro hall
        exact h.inherit hp (allNullable_eq_true.1 hall)
      · intro hall
        exact h.meet hp (allNullable_eq_true.1 hall)
  · rintro ⟨heof, h⟩
    have hdemand {A : Symbol} {ω : Body} (hp : (A, ω) ∈ productionsOf rules) :
        ∃ r : Rule, r.lhs = A ∧ r.rhs = ω ∧ ∀ d ∈ r.demands, d.Holds a := by
      obtain ⟨r, hr, heq⟩ := List.mem_map.1 hp
      obtain ⟨hA, hω⟩ := Prod.mk.inj heq
      exact ⟨r, hA, hω, fun d hd => h d (List.mem_flatMap.2 ⟨r, hr, hd⟩)⟩
    refine ⟨heof, ?_, ?_, ?_, ?_⟩
    · intro A ω hp hω
      obtain ⟨r, rfl, rfl, hr⟩ := hdemand hp
      exact hr _ (Demand.mem_demands.2 (Or.inl rfl)) (allNullable_eq_true.2 hω)
    · intro A s before rest hp hbefore
      obtain ⟨r, rfl, hsplit, hr⟩ := hdemand hp
      exact hr _ (Demand.mem_demands.2 (Or.inr ⟨before, s, rest, hsplit, Or.inl rfl⟩))
        (allNullable_eq_true.2 hbefore)
    · intro A s before rest hp hrest
      obtain ⟨r, rfl, hsplit, hr⟩ := hdemand hp
      exact hr _ (Demand.mem_demands.2 (Or.inr ⟨before, s, rest, hsplit, Or.inr (Or.inl rfl)⟩))
        (allNullable_eq_true.2 hrest)
    · intro A s u before between rest hp hbetween
      obtain ⟨r, rfl, hsplit, hr⟩ := hdemand hp
      exact hr _ (Demand.mem_demands.2 (Or.inr ⟨before, s, _, hsplit, Or.inr (Or.inr ⟨between, u, rest, rfl, rfl⟩)⟩))
        (allNullable_eq_true.2 hbetween)

/-- A sweep adds to the analysis, it notes something new exactly when it changes anything, and when it changes
nothing all the demands are met. -/
lemma sweep_spec {demands : List Demand} {a : Analysis} (htarget : ∀ d ∈ demands, d.target ∈ a.facts) :
    Grows a (sweep demands a).1 ∧ ((sweep demands a).2 = true ↔ (sweep demands a).1 ≠ a) ∧
      ((sweep demands a).1 = a → ∀ d ∈ demands, d.Holds a) := by
  induction demands generalizing a with
  | nil => exact ⟨.refl a, by simp [sweep], by simp⟩
  | cons d demands ih =>
    have hupdate := d.grows_update a
    have hd := htarget d List.mem_cons_self
    obtain ⟨hgrows, hnotes, hholds⟩ := ih (a := d.update a) fun e he =>
      (hupdate.mem_facts _).2 (htarget e (List.mem_cons_of_mem d he))
    -- what has grown once never shrinks back
    have hstay (h : (sweep demands (d.update a)).1 = a) : d.update a = a := by
      rw [h] at hgrows
      exact hgrows.antisymm hupdate
    rw [sweep]
    refine ⟨hupdate.trans hgrows, ?_, ?_⟩
    · rw [Bool.or_eq_true, Demand.finds_iff hd, hnotes]
      constructor
      · rintro (hne | hne) heq
        · exact hne (hstay heq)
        · exact hne (heq.trans (hstay heq).symm)
      · intro hne
        by_cases heq : d.update a = a
        · rw [heq] at hne ⊢
          exact Or.inr hne
        · exact Or.inl heq
    · intro heq
      have hstays := hstay heq
      rw [hstays] at hholds heq
      exact List.forall_mem_cons.2 ⟨Demand.holds_of_update_eq hd hstays, hholds heq⟩

/-- A sweep stays below an analysis that meets the demands. -/
lemma sweep_grows {demands : List Demand} {a c : Analysis} (h : Grows a c) (hc : ∀ d ∈ demands, d.Holds c) :
    Grows (sweep demands a).1 c := by
  induction demands generalizing a with
  | nil => exact h
  | cons d demands ih =>
    obtain ⟨hd, hdemands⟩ := List.forall_mem_cons.1 hc
    exact ih (Demand.update_grows h hd) hdemands

/-- The demands of rules over the symbols of an analysis are about its symbols. -/
lemma target_mem_facts {a : Analysis} (hrules : ∀ r ∈ rules, ∀ s ∈ r.lhs :: r.rhs, s ∈ a.facts) :
    ∀ d ∈ rules.flatMap Rule.demands, d.target ∈ a.facts := by
  intro d hd
  obtain ⟨r, hr, hd⟩ := List.mem_flatMap.1 hd
  exact hrules r hr _ (Demand.target_mem hd)

/-- An analysis over which a sweep notes nothing new is closed. -/
lemma closed_of_sweep {a b : Analysis} (h : sweep (rules.flatMap Rule.demands) a = (b, false))
    (hrules : ∀ r ∈ rules, ∀ s ∈ r.lhs :: r.rhs, s ∈ a.facts) (heof : eof ∈ a.follow start) :
    b = a ∧ a.Closed (productionsOf rules) start eof := by
  obtain ⟨-, hnotes, hholds⟩ := sweep_spec (target_mem_facts hrules)
  rw [h] at hnotes hholds
  have heq : b = a := by
    by_contra hne
    cases hnotes.2 hne
  exact ⟨heq, closed_iff_holds.2 ⟨heof, hholds heq⟩⟩

section

variable {a b : Analysis} (hleast : LeastClosed (productionsOf rules) start eof a b)
  (hstart : start ∈ a.facts) (hrules : ∀ r ∈ rules, ∀ s ∈ r.lhs :: r.rhs, s ∈ a.facts)
include hleast hrules

/-- A sweep over an analysis between `a` and the least closed one stays between them, and what it notes tells whether
anything has changed. -/
lemma LeastClosed.sweep {x y : Analysis} {grew : Bool} (hax : Grows a x) (hxb : Grows x b)
    (hy : Analysis.sweep (rules.flatMap Rule.demands) x = (y, grew)) :
    Grows x y ∧ Grows y b ∧ (grew = true ↔ y ≠ x) := by
  have htarget : ∀ d ∈ rules.flatMap Rule.demands, d.target ∈ x.facts := by
    apply target_mem_facts
    intro r hr s hs
    exact (hax.mem_facts s).2 (hrules r hr s hs)
  obtain ⟨hgrows, hnotes, -⟩ := sweep_spec htarget
  have hbelow := sweep_grows hxb (closed_iff_holds.1 hleast.closed).2
  rw [hy] at hgrows hnotes hbelow
  exact ⟨hgrows, hbelow, hnotes⟩

/-- A sweep that notes nothing new has come to the least closed analysis. -/
lemma LeastClosed.eq_of_sweep {x y : Analysis} (hax : Grows a x) (hxb : Grows x b) (heof : eof ∈ x.follow start)
    (hy : Analysis.sweep (rules.flatMap Rule.demands) x = (y, false)) : y = b := by
  obtain ⟨rfl, hclosed⟩ := closed_of_sweep hy (fun r hr s hs => (hax.mem_facts s).2 (hrules r hr s hs)) heof
  exact hxb.antisymm (hleast.least y hax hclosed)

include hstart

/-- Sweeping until nothing new is found ends at the least closed analysis. -/
lemma LeastClosed.exists_settle_sweep (hfuel : b.weight a.symbols < (a.addFollow start {eof}).fuel) :
    ∃ sweeps, settle (fun x => .ok (Analysis.sweep (rules.flatMap Rule.demands) x)) (a.addFollow start {eof}).fuel
      (a.addFollow start {eof}) = .ok (b, sweeps) := by
  set seeded := a.addFollow start {eof} with hseeded
  have hseed : Grows a seeded := grows_addFollow a start {eof}
  have hbelow : Grows seeded seeded ∧ Grows seeded b := ⟨.refl seeded, hleast.grows.addEof hleast.closed.eof_mem⟩
  have hstep {x y : Analysis} {grew : Bool} (hx : Grows seeded x ∧ Grows x b)
      (hy : (Except.ok (Analysis.sweep (rules.flatMap Rule.demands) x) : Except Fault _) = .ok (y, grew)) :
      (Grows seeded y ∧ Grows y b) ∧ (grew = true → x.weight a.symbols < y.weight a.symbols) := by
    obtain ⟨hxy, hyb, hnotes⟩ := hleast.sweep hrules (hseed.trans hx.1) hx.2 (Except.ok.inj hy)
    refine ⟨⟨hx.1.trans hxy, hyb⟩, ?_⟩
    intro hgrew
    apply hxy.weight_lt (hnotes.1 hgrew)
    intro s hs
    exact mem_symbols.2 (((hseed.trans hx.1).mem_facts s).1 hs)
  obtain ⟨c, sweeps, hsettle⟩ : ∃ c sweeps,
      settle (fun x => .ok (Analysis.sweep (rules.flatMap Rule.demands) x)) seeded.fuel seeded = .ok (c, sweeps) := by
    refine exists_settle_eq_ok (P := fun x => Grows seeded x ∧ Grows x b) (weight a.symbols) (b.weight a.symbols)
      ?_ ?_ hbelow (by omega)
    · intro x hx
      obtain ⟨hy, hlt⟩ := hstep hx rfl
      exact ⟨_, _, rfl, hy, hlt⟩
    · intro x hx
      exact hx.2.weight_le _
  obtain ⟨x, hx, hlast⟩ := exists_last_of_settle (P := fun x => Grows seeded x ∧ Grows x b)
    (fun _ _ _ hx hy => (hstep hx hy).1) hbelow hsettle
  obtain rfl := hleast.eq_of_sweep hrules (hseed.trans hx.1) hx.2 (hx.1.mem_follow (eof_mem_addFollow hstart))
    (Except.ok.inj hlast)
  exact ⟨sweeps, hsettle⟩

/-- The notes of the sweeps tell whether the analysis has grown. -/
lemma LeastClosed.notes_iff {fuel sweeps : Nat}
    (h : settle (fun x => .ok (Analysis.sweep (rules.flatMap Rule.demands) x)) fuel (a.addFollow start {eof}) =
      .ok (b, sweeps)) :
    eof ∉ a.follow start ∨ 1 < sweeps ↔ b ≠ a := by
  set seeded := a.addFollow start {eof} with hseeded
  have hseed : Grows a seeded := grows_addFollow a start {eof}
  have hseedb : Grows seeded b := hleast.grows.addEof hleast.closed.eof_mem
  have heof : eof ∈ seeded.follow start := eof_mem_addFollow hstart
  -- the first sweep notes something new exactly when it is not the last one
  have hfirst : 1 < sweeps ↔ b ≠ seeded := by
    rw [one_lt_count_iff h]
    rcases hsweep : Analysis.sweep (rules.flatMap Rule.demands) seeded with ⟨y, grew⟩
    obtain ⟨hxy, hyb, hnotes⟩ := hleast.sweep hrules hseed hseedb hsweep
    cases grew with
    | false =>
      have hyeq : y = seeded := by
        by_contra hne
        cases hnotes.2 hne
      have hbeq := hleast.eq_of_sweep hrules hseed hseedb heof hsweep
      simp [← hbeq, hyeq]
    | true =>
      have hne := hnotes.1 rfl
      refine iff_of_true ⟨y, rfl⟩ ?_
      intro heq
      rw [heq] at hyb
      exact hne (hyb.antisymm hxy)
  rw [hfirst]
  constructor
  · rintro (hnew | hne) heq
    · exact hnew (heq ▸ hseedb.mem_follow heof)
    · rw [heq] at hne hseedb
      exact hne (hseed.antisymm hseedb)
  · intro hne
    by_contra hnot
    push Not at hnot
    obtain ⟨hold, hbeq⟩ := hnot
    have hsame : seeded = a := (Grows.addEof (.refl a) hold).antisymm hseed
    exact hne (hbeq.trans hsame)

/-- Sweeping with notes gives the least closed analysis, and says whether it is another one than `a`. -/
lemma LeastClosed.saturate_eq_ok (hfuel : b.weight a.symbols < (a.addFollow start {eof}).fuel) :
    a.saturate start eof rules = .ok (b, decide (b ≠ a)) := by
  obtain ⟨sweeps, hsettle⟩ := hleast.exists_settle_sweep hstart hrules hfuel
  refine bind_eq_ok.2 ⟨(b, sweeps), hsettle, ?_⟩
  have hnotes : (decide (eof ∉ a.follow start) || decide (1 < sweeps)) = decide (b ≠ a) := by
    rw [← Bool.decide_or]
    exact decide_eq_decide.2 (hleast.notes_iff hstart hrules hsettle)
  exact congrArg (fun grew => Except.ok (b, grew)) hnotes

end

/-! ### The outcome and its answer -/

/-- Started on any analysis, the computation over its symbols succeeds with the least closed analysis above it: every
closed analysis that says all that `a` says also says all that the outcome says.  The answer is whether the outcome
is another analysis, and sweeping demand by demand, with notes of what is new, gives the same outcome and the same
answer.  Computing again changes nothing and says so.  Rules with the same productions, in another order or
repeated, give the same outcome and the same answer. -/
theorem compute_gives_least_closed (a : Analysis) {start : Symbol} (eof : Symbol) {rules : List Rule}
    (hstart : start ∈ a.facts) (hrules : ∀ r ∈ rules, ∀ s ∈ r.lhs :: r.rhs, s ∈ a.facts) :
    ∃ b grew, a.compute start eof rules = .ok (b, grew) ∧
      Grows a b ∧ b.Closed (productionsOf rules) start eof ∧
      (∀ c, Grows a c → c.Closed (productionsOf rules) start eof → Grows b c) ∧
      (grew = true ↔ b ≠ a) ∧
      a.saturate start eof rules = .ok (b, grew) ∧
      b.compute start eof rules = .ok (b, false) ∧
      ∀ rules', (∀ p, p ∈ productionsOf rules' ↔ p ∈ productionsOf rules) →
        a.compute start eof rules' = .ok (b, grew) := by
  obtain ⟨b, hcompute, hleast, hfuel⟩ := exists_compute_leastClosed a eof hstart hrules
  refine ⟨b, decide (b ≠ a), hcompute, hleast.grows, hleast.closed, hleast.least, decide_eq_true_iff,
    hleast.saturate_eq_ok hstart hrules hfuel, ?_, ?_⟩
  · -- a closed analysis is its own least closed analysis
    have hstart' := (hleast.grows.mem_facts start).2 hstart
    obtain ⟨c, hagain, hleast', -⟩ := exists_compute_leastClosed b eof hstart' fun r hr s hs =>
      (hleast.grows.mem_facts s).2 (hrules r hr s hs)
    obtain rfl : c = b := hleast'.unique hleast.closed.leastClosed fun _ => Iff.rfl
    simpa using hagain
  · intro rules' hps
    have hrules' : ∀ r ∈ rules', ∀ s ∈ r.lhs :: r.rhs, s ∈ a.facts := by
      intro r hr
      obtain ⟨q, hq, heq⟩ := List.mem_map.1 ((hps (r.lhs, r.rhs)).1 (List.mem_map.2 ⟨r, hr, rfl⟩))
      obtain ⟨hlhs, hrhs⟩ := Prod.mk.inj heq
      rw [← hlhs, ← hrhs]
      exact hrules q hq
    obtain ⟨c, hcompute', hleast', -⟩ := exists_compute_leastClosed a eof hstart hrules'
    obtain rfl : b = c := hleast.unique hleast' hps
    exact hcompute'

/-- After the analysis of nested pairs, more is found with `S` as the start symbol, `a` as the end of input and two
further rules, one of which makes the terminal `b` nullable.  The order of these rules does not matter. -/
theorem compute_gives_least_closed_nested :
    ∃ a b grew,
      (ofKinds Grammar.nested.classification).compute ⟨0⟩ Symbol.eof Grammar.nested.rules.toList = .ok (a, grew) ∧
      a.compute ⟨1⟩ ⟨10⟩ [⟨0, ⟨11⟩, []⟩, ⟨1, ⟨0⟩, [⟨11⟩, ⟨1⟩]⟩] = .ok (b, true) ∧
      b.nullable ⟨11⟩ = true ∧
      b.compute ⟨1⟩ ⟨10⟩ [⟨0, ⟨11⟩, []⟩, ⟨1, ⟨0⟩, [⟨11⟩, ⟨1⟩]⟩] = .ok (b, false) ∧
      a.compute ⟨1⟩ ⟨10⟩ [⟨0, ⟨0⟩, [⟨11⟩, ⟨1⟩]⟩, ⟨1, ⟨11⟩, []⟩, ⟨2, ⟨0⟩, [⟨11⟩, ⟨1⟩]⟩] = .ok (b, true) := by
  have hfacts {s : Symbol} : s ∈ (ofKinds Grammar.nested.classification).facts ↔ s ∈ Grammar.nested.classification :=
    Std.ExtTreeMap.mem_map
  have hnested : ∀ r ∈ Grammar.nested.rules.toList, ∀ s ∈ r.lhs :: r.rhs, s ∈ Grammar.nested.classification := by
    decide +kernel
  have hkinds : ∀ s ∈ ([⟨0⟩, ⟨1⟩, ⟨11⟩] : List Symbol), s ∈ Grammar.nested.classification := by decide +kernel
  obtain ⟨a, hfirst, hleast, -⟩ := exists_compute_leastClosed (ofKinds Grammar.nested.classification) Symbol.eof
    (hfacts.2 (hkinds ⟨0⟩ (by simp))) fun r hr s hs => hfacts.2 (hnested r hr s hs)
  have hmem : ∀ s ∈ ([⟨0⟩, ⟨1⟩, ⟨11⟩] : List Symbol), s ∈ a.facts := by
    intro s hs
    exact (hleast.grows.mem_facts s).2 (hfacts.2 (hkinds s hs))
  -- the end of input of the second computation is new
  have hfollow : ⟨10⟩ ∉ a.follow ⟨1⟩ := by
    have heval : ((ofKinds Grammar.nested.classification).compute ⟨0⟩ Symbol.eof
        Grammar.nested.rules.toList).toOption.map (fun p => decide (⟨10⟩ ∈ p.1.follow ⟨1⟩)) = some false := by
      decide +kernel
    rw [hfirst] at heval
    simpa [Except.toOption] using heval
  have hrules : ∀ r ∈ ([⟨0, ⟨11⟩, []⟩, ⟨1, ⟨0⟩, [⟨11⟩, ⟨1⟩]⟩] : List Rule), ∀ s ∈ r.lhs :: r.rhs,
      s ∈ ([⟨0⟩, ⟨1⟩, ⟨11⟩] : List Symbol) := by
    decide
  obtain ⟨b, grew, hcompute, -, hclosed, -, hgrew, -, hagain, horder⟩ :=
    compute_gives_least_closed a ⟨10⟩ (hmem ⟨1⟩ (by simp)) fun r hr s hs => hmem s (hrules r hr s hs)
  obtain rfl : grew = true := hgrew.2 fun heq => hfollow (heq ▸ hclosed.eof_mem)
  refine ⟨a, b, _, hfirst, hcompute, hclosed.nullable (ω := []) (by simp [productionsOf]) (by simp), hagain, ?_⟩
  exact horder _ fun p => by simp [productionsOf, or_comm]

end Analysis

end Lalr
