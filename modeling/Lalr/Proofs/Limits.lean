import Lalr.Proofs.Attempts

/-!
# The limit on the stack

A limit is looked at once for each token: when the trial has found that the token fits, its greatest depth is compared
with the limit.  The trial and the run go through the same depths, so that the stack never rises above the limit, not
even between two reductions, and a token is refused because of the limit exactly when its run would rise above it
(`Parser.limit_is_exact`).

Nothing else depends on the limit.  `Parser.limited` sets it, and setting it commutes with everything that a parser
does, short of an overflow; two runs with different limits are therefore the same until the lower limit is met
(`Parser.after_limited`).
-/

namespace Lalr

/-! ### The depths of a trial -/

namespace Table

variable {t : Table} {x : Symbol} {p : Path} {fuel peak result : Nat}

/-- The result of a trial is not exceeded by the reductions that it has followed, nor by the shift after them. -/
lemma depth_le_of_simulateFrom (h : t.simulateFrom x fuel p peak = .ok (some result)) (hp : p.depth ≤ peak) :
    peak ≤ result ∧ ∀ q, Relation.ReflTransGen (t.ReducesPath x) p q →
      q.depth ≤ result ∧ ∀ m, t.action? q.top x = some (.shift m) → q.depth + 1 ≤ result := by
  induction fuel generalizing p peak with
  | zero => cases h
  | succ fuel ih =>
    have hstop {q : Path} (hstops : t.Stops x p) (hq : Relation.ReflTransGen (t.ReducesPath x) p q) : q = p := by
      rcases hq.cases_head with rfl | ⟨r, hr, -⟩
      · rfl
      · exact absurd hr hstops.not_reducesPath
    rw [simulateFrom] at h
    split at h
    · rename_i m haction
      have hresult : max peak (p.depth + 1) = result := Option.some.inj (Except.ok.inj h)
      refine ⟨by omega, fun q hq => ?_⟩
      rw [hstop (Or.inl ⟨m, haction⟩) hq]
      exact ⟨by omega, fun _ _ => by omega⟩
    · rename_i haction
      obtain rfl : peak = result := Option.some.inj (Except.ok.inj h)
      refine ⟨le_rfl, fun q hq => ?_⟩
      rw [hstop (Or.inr haction) hq]
      exact ⟨hp, fun m hm => by cases haction.symm.trans hm⟩
    · rename_i k hk
      obtain ⟨r, hpath, hrest⟩ := bind_eq_ok.1 h
      obtain ⟨hle, hall⟩ := ih hrest (le_max_right _ _)
      refine ⟨(le_max_left _ _).trans hle, fun q hq => ?_⟩
      rcases hq.cases_head with rfl | ⟨r', hr', hq'⟩
      · exact ⟨hp.trans ((le_max_left _ _).trans hle), fun m hm => by cases hk.symm.trans hm⟩
      · obtain rfl := rightUnique_reducesPath ⟨k, hk, hpath⟩ hr'
        exact hall q hq'
    · cases h

/-- The result of a trial is reached: it is the depth given at the start, the depth after a reduction, or the depth
after the shift. -/
lemma exists_depth_eq_of_simulateFrom (h : t.simulateFrom x fuel p peak = .ok (some result)) :
    result = peak ∨ ∃ q, Relation.ReflTransGen (t.ReducesPath x) p q ∧
      (q.depth = result ∨ (∃ m, t.action? q.top x = some (.shift m)) ∧ q.depth + 1 = result) := by
  induction fuel generalizing p peak with
  | zero => cases h
  | succ fuel ih =>
    rw [simulateFrom] at h
    split at h
    · rename_i m haction
      have hresult : max peak (p.depth + 1) = result := Option.some.inj (Except.ok.inj h)
      rcases max_choice peak (p.depth + 1) with hmax | hmax
      · exact Or.inl (hresult.symm.trans hmax)
      · exact Or.inr ⟨p, .refl, Or.inr ⟨⟨m, haction⟩, hmax.symm.trans hresult⟩⟩
    · exact Or.inl (Option.some.inj (Except.ok.inj h)).symm
    · rename_i k hk
      obtain ⟨r, hpath, hrest⟩ := bind_eq_ok.1 h
      have hreduces : t.ReducesPath x p r := ⟨k, hk, hpath⟩
      rcases ih hrest with hresult | ⟨q, hq, hdepth⟩
      · rcases max_choice peak r.depth with hmax | hmax
        · exact Or.inl (hresult.trans hmax)
        · exact Or.inr ⟨r, .single hreduces, Or.inl (hmax.symm.trans hresult.symm)⟩
      · exact Or.inr ⟨q, .head hreduces hq, hdepth⟩
    · cases h

end Table

namespace Parser

variable {σ N : Type}

/-! ### The stacks of a call -/

/-- The stacks that a call goes through.  While a reduction takes nodes off the stack, the stack is no deeper than
before the reduction. -/
inductive Passes (p : Parser σ N) (fuel : Nat) (token : Token) : Stack N → Prop
  /-- The stack that the call finds. -/
  | start : Passes p fuel token p.stack
  /-- The stack after reductions under the last symbol that the call tries, if that fits and is not refused. -/
  | reduced {unfit : List Symbol} {x : Symbol} {memory : σ} {peak : Nat} {q : Parser σ N}
      (hunfinished : p.isFinished = false) (h : p.Attempts fuel token unfit x memory)
      (hpeak : p.table.simulate fuel p.stack.path x = .ok (some peak))
      (hcarried : ∀ e, (p.process fuel token).outcome ≠ .failed e)
      (hchain : Relation.ReflTransGen (Reduces x) (p.trying memory unfit.length) q) : Passes p fuel token q.stack
  /-- The stack that the call leaves. -/
  | last : Passes p fuel token (p.process fuel token).parser.stack

/-- Where the path can be reduced step by step, so can the parser. -/
lemma exists_reduces_of_reducesPath {x : Symbol} {p : Parser σ N} {path : Path}
    (h : Relation.ReflTransGen (p.table.ReducesPath x) p.stack.path path) :
    ∃ q, Relation.ReflTransGen (Reduces x) p q ∧ q.stack.path = path := by
  induction h with
  | refl => exact ⟨p, .refl, rfl⟩
  | tail _ hreduces ih =>
    obtain ⟨q, hchain, rfl⟩ := ih
    obtain ⟨k, hk, hpath⟩ := hreduces
    obtain ⟨hmatches, -⟩ := reducesPath_of_reduces hchain
    rw [← hmatches.table] at hk hpath
    obtain ⟨r, notice, hreduce, -, hr⟩ := exists_reduce_of_reducePath hpath
    exact ⟨r, hchain.tail ⟨k, notice, hk, hreduce⟩, hr⟩

/-- The reductions under a symbol that fits stay within the depth that its trial has found. -/
lemma depth_le_of_reduces {x : Symbol} {p q : Parser σ N} {fuel peak : Nat}
    (hpeak : p.table.simulate fuel p.stack.path x = .ok (some peak))
    (h : Relation.ReflTransGen (Reduces x) p q) :
    q.stack.depth ≤ peak ∧ ∀ m, q.table.action? q.stack.top x = some (.shift m) → q.stack.depth + 1 ≤ peak := by
  obtain ⟨hmatches, hpath⟩ := reducesPath_of_reduces h
  rw [hmatches.table]
  exact (Table.depth_le_of_simulateFrom hpeak le_rfl).2 _ hpath

/-- A token that fits leaves a stack within the depth that its trial has found. -/
lemma depth_advance_le (token : Token) (p : Parser σ N) {fuel peak : Nat}
    (hpeak : p.table.simulate fuel p.stack.path token.symbol = .ok (some peak)) (log : List Notice) :
    (advance token fuel p log).parser.stack.depth ≤ peak := by
  obtain ⟨q, hchain, hcases⟩ := advance_cases token fuel p log
  obtain ⟨hdepth, hshift⟩ := depth_le_of_reduces hpeak hchain
  rcases hcases with ⟨m, hm, hparser, -⟩ | ⟨-, haccept, -⟩ | ⟨hparser, -⟩
  · rw [hparser]
    exact hshift m hm
  · exact (depth_le_of_accept haccept).trans hdepth
  · rw [hparser]
    exact hdepth

/-! ### Setting the limit -/

/-- The parser with another limit. -/
def limited (p : Parser σ N) (limit : Nat) : Parser σ N := { p with limit }

/-- Setting the limit that a parser has changes nothing. -/
lemma limited_eq_self {p : Parser σ N} {limit : Nat} (h : p.limit = limit) : p.limited limit = p := by
  subst h
  rfl

/-- A reduction does not depend on the limit. -/
lemma reduce_limited (p : Parser σ N) (limit k : Nat) :
    (p.limited limit).reduce k = (p.reduce k).map fun r => (r.1.limited limit, r.2) := by
  unfold reduce limited
  cases p.table.rule k with
  | error f => rfl
  | ok r =>
    simp only [bind, Except.bind]
    cases p.stack.popMany? r.rhs.length with
    | none => rfl
    | some popped =>
      simp only
      cases p.table.gotoAfter popped.2.top r <;> rfl

/-- Accepting does not depend on the limit. -/
lemma accept_limited (p : Parser σ N) (limit : Nat) :
    (p.limited limit).accept = p.accept.map fun q => q.limited limit := by
  unfold accept limited
  cases p.stack.pop? with
  | none => rfl
  | some popped =>
    simp only
    split <;> rfl

/-- Carrying a token through does not depend on the limit. -/
lemma advance_limited (token : Token) (fuel : Nat) (p : Parser σ N) (limit : Nat) (log log' : List Notice) :
    (advance token fuel (p.limited limit) log').parser = (advance token fuel p log).parser.limited limit ∧
      (advance token fuel (p.limited limit) log').outcome = (advance token fuel p log).outcome := by
  induction fuel generalizing p log log' with
  | zero => exact ⟨rfl, rfl⟩
  | succ fuel ih =>
    rw [advance, advance]
    cases haction : p.table.action? p.stack.top token.symbol with
    | none =>
      have haction' : (p.limited limit).table.action? (p.limited limit).stack.top token.symbol = none := haction
      simp only [haction', true_and]
      rfl
    | some action =>
      have haction' : (p.limited limit).table.action? (p.limited limit).stack.top token.symbol = some action := haction
      simp only [haction']
      cases action with
      | shift m => exact ⟨rfl, rfl⟩
      | reduce k =>
        simp only [reduce_limited]
        cases p.reduce k with
        | error f => exact ⟨rfl, rfl⟩
        | ok r => exact ih r.1 _ _
      | accept =>
        simp only [accept_limited]
        cases p.accept with
        | error f => exact ⟨rfl, rfl⟩
        | ok q => exact ⟨rfl, rfl⟩
      | goto m => exact ⟨rfl, rfl⟩
      | reduceMulti rules => exact ⟨rfl, rfl⟩

namespace Attempts

variable {p : Parser σ N} {fuel peak : Nat} {token : Token} {unfit : List Symbol} {x : Symbol} {memory : σ}

/-- The attempts of a call do not depend on the limit. -/
lemma limited (h : p.Attempts fuel token unfit x memory) (limit : Nat) :
    (p.limited limit).Attempts fuel token unfit x memory := by
  induction h with
  | first hfilter => exact .first hfilter
  | retry _ hunfit hexpected hanswer hnew ih => exact .retry ih hunfit hexpected hanswer hnew

variable (h : p.Attempts fuel token unfit x memory) (hunfinished : p.isFinished = false)
  (hpeak : p.table.simulate fuel p.stack.path x = .ok (some peak))
include h hunfinished hpeak

/-- A call whose symbol fits carries its token through, unless the stack would rise above the limit that is set. -/
lemma process_limited (limit : Nat) :
    ∃ log, (p.limited limit).process fuel token =
      if 0 < limit ∧ limit < peak then
        ⟨{ (p.trying memory unfit.length).limited limit with isFinished := true }, .failed (.stackOverflow limit),
          log.reverse⟩
      else advance { token with symbol := x } fuel ((p.trying memory unfit.length).limited limit) log :=
  (h.limited limit).process_of_fits hunfinished hpeak

/-- A call whose symbol fits overflows exactly when its trial has risen above the limit. -/
lemma overflow_iff (limit : Nat) :
    ((p.limited limit).process fuel token).outcome = .failed (.stackOverflow limit) ↔ 0 < limit ∧ limit < peak := by
  obtain ⟨log, hprocess⟩ := h.process_limited hunfinished hpeak limit
  rw [hprocess]
  split
  · rename_i hover
    exact ⟨fun _ => hover, fun _ => rfl⟩
  · rename_i hfits
    exact ⟨fun hfailed => absurd hfailed (advance_ne_failed _ _ _ _ _), fun hover => absurd hover hfits⟩

end Attempts

/-- The end of a call whose last symbol does not fit does not depend on the limit. -/
lemma Gives.limited {p q : Parser σ N} {fuel : Nat} {token : Token} {unfit : List Symbol} {x : Symbol} {memory : σ}
    {outcome : Outcome} (h : p.Gives fuel token unfit x memory q outcome) (limit : Nat) :
    (p.limited limit).Gives fuel token unfit x memory (q.limited limit) outcome := by
  cases h with
  | up hunfit hexpected hanswer hold => exact .up hunfit hexpected hanswer hold
  | faultOfTrial hf => exact .faultOfTrial hf
  | faultOfSearch hunfit hf => exact .faultOfSearch hunfit hf

/-- A call leaves the stack as it is and ends in the same way under every limit, without an overflow and without
having used its token; or its attempts end with a symbol that fits. -/
lemma process_limited_cases (p : Parser σ N) (fuel : Nat) (token : Token) :
    (∃ (q : Parser σ N) (outcome : Outcome), q.stack = p.stack ∧
        (∀ limit, ∃ notices, (p.limited limit).process fuel token = ⟨q.limited limit, outcome, notices⟩) ∧
        (∀ limit, outcome ≠ .failed (.stackOverflow limit)) ∧ outcome ≠ .progress .shifted ∧
        outcome ≠ .progress .accepted) ∨
      ∃ unfit x memory peak, p.isFinished = false ∧ p.Attempts fuel token unfit x memory ∧
        p.table.simulate fuel p.stack.path x = .ok (some peak) := by
  cases hfinished : p.isFinished with
  | true =>
    refine Or.inl ⟨p, .failed .finished, rfl, fun limit => ⟨[], ?_⟩, nofun, nofun, nofun⟩
    exact process_of_isFinished (p := p.limited limit) hfinished fuel token
  | false =>
    cases hfilter : p.context.filter token.symbol token.text p.memory with
    | mk answer memory =>
      cases answer with
      | none =>
        refine Or.inl ⟨{ p with memory }, .progress .skipped, rfl, fun limit => ?_, nofun, nofun, nofun⟩
        exact process_of_dropped (p := p.limited limit) hfinished hfilter fuel
      | some y =>
        have hfirst : p.Attempts fuel token [] y memory := .first hfilter
        obtain ⟨unfit, x, memory', h, ⟨peak, hpeak⟩ | ⟨q, outcome, hgives⟩⟩ := hfirst.exists_last
        · exact Or.inr ⟨unfit, x, memory', peak, rfl, h, hpeak⟩
        · have hprocess (limit : Nat) := (h.limited limit).process_of_gives hfinished (hgives.limited limit)
          refine Or.inl ⟨q, outcome, ?_, hprocess, ?_⟩
          · cases hgives <;> rfl
          · cases hgives <;> exact ⟨nofun, nofun, nofun⟩

/-- A call that does not overflow does the same under every higher limit. -/
lemma process_limited {p : Parser σ N} {fuel : Nat} {token : Token} {limit limit' : Nat}
    (hle : limit' = 0 ∨ 0 < limit ∧ limit ≤ limit')
    (h : ((p.limited limit).process fuel token).outcome ≠ .failed (.stackOverflow limit)) :
    ((p.limited limit').process fuel token).parser =
        ((p.limited limit).process fuel token).parser.limited limit' ∧
      ((p.limited limit').process fuel token).outcome = ((p.limited limit).process fuel token).outcome := by
  rcases p.process_limited_cases fuel token with
    ⟨q, outcome, -, hprocess, -⟩ | ⟨unfit, x, memory, peak, hunfinished, hattempts, hpeak⟩
  · obtain ⟨notices, hlower⟩ := hprocess limit
    obtain ⟨notices', hupper⟩ := hprocess limit'
    rw [hlower, hupper]
    exact ⟨rfl, rfl⟩
  · obtain ⟨log, hlower⟩ := hattempts.process_limited hunfinished hpeak limit
    obtain ⟨log', hupper⟩ := hattempts.process_limited hunfinished hpeak limit'
    have hfits : ¬ (0 < limit ∧ limit < peak) := (hattempts.overflow_iff hunfinished hpeak limit).not.1 h
    have hfits' : ¬ (0 < limit' ∧ limit' < peak) := by omega
    rw [hlower, hupper, if_neg hfits, if_neg hfits']
    exact advance_limited _ fuel ((p.trying memory unfit.length).limited limit) limit' log log'

/-- Calls that do not overflow do the same under every higher limit. -/
lemma after_limited {p : Parser σ N} {calls : List (Nat × Token)} {limit limit' : Nat}
    (hle : limit' = 0 ∨ 0 < limit ∧ limit ≤ limit')
    (h : .failed (.stackOverflow limit) ∉ (p.limited limit).outcomes calls) :
    (p.limited limit').outcomes calls = (p.limited limit).outcomes calls ∧
      (p.limited limit').after calls = ((p.limited limit).after calls).limited limit' := by
  induction calls generalizing p with
  | nil => exact ⟨rfl, rfl⟩
  | cons call calls ih =>
    obtain ⟨fuel, token⟩ := call
    simp only [outcomes, List.mem_cons, not_or] at h
    obtain ⟨hparser, houtcome⟩ := process_limited hle (Ne.symm h.1)
    -- the call keeps the limit, so that the rest of the calls begin with it again
    have hkept := limited_eq_self ((p.limited limit).matches_after [(fuel, token)]).limit
    change ((p.limited limit).process fuel token).parser.limited limit = _ at hkept
    obtain ⟨houtcomes, hafter⟩ := ih (p := ((p.limited limit).process fuel token).parser) (by rw [hkept]; exact h.2)
    rw [hkept] at houtcomes hafter
    rw [outcomes, outcomes, after, after, hparser, houtcome]
    exact ⟨congrArg _ houtcomes, hafter⟩

/-- What a call shows to the context as not fitting does not depend on the limit. -/
lemma rejections_limited (p : Parser σ N) (fuel : Nat) (token : Token) (limit : Nat) :
    (p.limited limit).rejections fuel token = p.rejections fuel token := by
  suffices h : ∃ callbacks : List (Callback N), ∀ limit,
      (((p.traced []).limited limit).process fuel token).parser.memory.2.filterMap Callback.rejection? =
        callbacks.filterMap Callback.rejection? by
    obtain ⟨callbacks, hcallbacks⟩ := h
    exact congrArg List.reverse ((hcallbacks limit).trans (hcallbacks p.limit).symm)
  rcases (p.traced []).process_limited_cases fuel token with
    ⟨q, outcome, -, hprocess, -⟩ | ⟨unfit, x, memory, peak, hunfinished, hattempts, hpeak⟩
  · refine ⟨q.memory.2, fun limit => ?_⟩
    obtain ⟨notices, heq⟩ := hprocess limit
    rw [heq]
    rfl
  · refine ⟨memory.2, fun limit => ?_⟩
    obtain ⟨log, heq⟩ := hattempts.process_limited hunfinished hpeak limit
    rw [heq]
    split
    · rfl
    · exact filterMap_rejection?_advance rfl _ fuel log

/-! ### Staying within the limit -/

/-- A call that finds the stack within a limit keeps it there at every moment. -/
lemma Passes.depth_le {p : Parser σ N} {fuel : Nat} {token : Token} {s : Stack N} (h : p.Passes fuel token s)
    (hlimit : 0 < p.limit) (hdepth : p.stack.depth ≤ p.limit) : s.depth ≤ p.limit := by
  cases h with
  | start => exact hdepth
  | @reduced unfit x memory peak q hunfinished h hpeak hcarried hchain =>
    have hfits := (h.overflow_iff hunfinished hpeak p.limit).not.1 (hcarried _)
    have hq := (depth_le_of_reduces (p := p.trying memory unfit.length) hpeak hchain).1
    omega
  | last =>
    rcases p.process_limited_cases fuel token with
      ⟨q, outcome, hstack, hprocess, -⟩ | ⟨unfit, x, memory, peak, hunfinished, h, hpeak⟩
    · obtain ⟨notices, heq⟩ := hprocess p.limit
      change (((p.limited p.limit).process fuel token).parser.stack).depth ≤ p.limit
      rw [heq]
      exact hstack ▸ hdepth
    · obtain ⟨log, hprocess⟩ := h.process_of_fits hunfinished hpeak
      rw [hprocess]
      split
      · exact hdepth
      · rename_i hfits
        have hlast := depth_advance_le { token with symbol := x } (p.trying memory unfit.length) hpeak log
        omega

/-- Calls keep the stack within the limit. -/
lemma depth_after_le {p : Parser σ N} (hlimit : 0 < p.limit) (hdepth : p.stack.depth ≤ p.limit)
    (calls : List (Nat × Token)) : (p.after calls).stack.depth ≤ p.limit := by
  induction calls generalizing p with
  | nil => exact hdepth
  | cons call calls ih =>
    obtain ⟨fuel, token⟩ := call
    have hkept : (p.process fuel token).parser.limit = p.limit := (p.matches_after [(fuel, token)]).limit
    have hlast : (p.process fuel token).parser.stack.depth ≤ p.limit := Passes.last.depth_le hlimit hdepth
    rw [← hkept] at hlimit hlast ⊢
    exact ih hlimit hlast

/-! ### Rising above the limit -/

/-- A token that is carried through without a fault is shifted or accepted. -/
lemma shifted_or_accepted_of_advance {token : Token} {fuel : Nat} {p : Parser σ N} {log : List Notice}
    (h : ∀ f, (advance token fuel p log).outcome ≠ .fault f) :
    (advance token fuel p log).outcome = .progress .shifted ∨
      (advance token fuel p log).outcome = .progress .accepted := by
  obtain ⟨q, -, ⟨m, -, -, houtcome⟩ | ⟨-, -, houtcome⟩ | ⟨-, hnone⟩⟩ := advance_cases token fuel p log
  · exact Or.inl houtcome
  · exact Or.inr houtcome
  · cases houtcome : (advance token fuel p log).outcome with
    | progress progress => exact absurd houtcome (hnone progress)
    | failed e => exact absurd houtcome (advance_ne_failed token fuel p log e)
    | fault f => exact absurd houtcome (h f)

/-- A call that does not fault reaches the depth that its trial has found, unless it overflows. -/
lemma Attempts.exists_passes {p : Parser σ N} {fuel peak : Nat} {token : Token} {unfit : List Symbol} {x : Symbol}
    {memory : σ} {log : List Notice} (h : p.Attempts fuel token unfit x memory) (hunfinished : p.isFinished = false)
    (hpeak : p.table.simulate fuel p.stack.path x = .ok (some peak))
    (hprocess : p.process fuel token = advance { token with symbol := x } fuel (p.trying memory unfit.length) log)
    (hreturns : ∀ f, (p.process fuel token).outcome ≠ .fault f) :
    ∃ s, p.Passes fuel token s ∧ s.depth = peak := by
  rcases Table.exists_depth_eq_of_simulateFrom hpeak with heq | ⟨path, hpath, hdepth | ⟨⟨m, hm⟩, hdepth⟩⟩
  · exact ⟨_, .start, heq.symm⟩
  · obtain ⟨q, hchain, rfl⟩ := exists_reduces_of_reducesPath (p := p.trying memory unfit.length) hpath
    refine ⟨_, .reduced hunfinished h hpeak (fun e => ?_) hchain, hdepth⟩
    rw [hprocess]
    exact advance_ne_failed _ _ _ _ e
  · -- the run stops where the trial has stopped, and therefore shifts there
    refine ⟨_, .last, ?_⟩
    rw [hprocess] at hreturns ⊢
    obtain ⟨q, hchain, hcases⟩ :=
      advance_cases { token with symbol := x } fuel (p.trying memory unfit.length) log
    obtain ⟨hmatches, hpath'⟩ := reducesPath_of_reduces hchain
    rw [hmatches.table] at hcases
    rcases hcases with ⟨m', hm', hparser, -⟩ | ⟨haccept, -, -⟩ | ⟨-, hnone⟩
    · obtain rfl := Table.Stops.unique hpath (Or.inl ⟨m, hm⟩) hpath' (Or.inl ⟨m', hm'⟩)
      rw [hparser]
      exact hdepth
    · obtain rfl := Table.Stops.unique hpath (Or.inl ⟨m, hm⟩) hpath' (Or.inr haccept)
      cases hm.symm.trans haccept
    · rcases shifted_or_accepted_of_advance hreturns with hshifted | haccepted
      · exact absurd hshifted (hnone _)
      · exact absurd haccepted (hnone _)

/-- A call overflows exactly when without a limit it would shift or accept, but rise above the limit on the way. -/
lemma overflow_iff_passes {p : Parser σ N} {fuel limit : Nat} {token : Token} (hlimit : 0 < limit)
    (hreturns : ∀ f, ((p.limited 0).process fuel token).outcome ≠ .fault f) :
    ((p.limited limit).process fuel token).outcome = .failed (.stackOverflow limit) ↔
      (((p.limited 0).process fuel token).outcome = .progress .shifted ∨
        ((p.limited 0).process fuel token).outcome = .progress .accepted) ∧
      ∃ s, (p.limited 0).Passes fuel token s ∧ limit < s.depth := by
  rcases p.process_limited_cases fuel token with
    ⟨q, outcome, -, hprocess, hover, hshifted, haccepted⟩ | ⟨unfit, x, memory, peak, hunfinished, h, hpeak⟩
  · obtain ⟨notices, heq⟩ := hprocess limit
    obtain ⟨notices', heq'⟩ := hprocess 0
    rw [heq, heq']
    constructor
    · intro hfailed
      exact absurd hfailed (hover limit)
    · rintro ⟨hshifted' | haccepted', -⟩
      · exact absurd hshifted' hshifted
      · exact absurd haccepted' haccepted
  · obtain ⟨log, hprocess⟩ := h.process_limited hunfinished hpeak 0
    rw [if_neg (by omega)] at hprocess
    constructor
    · intro hfailed
      obtain ⟨-, hpeak'⟩ := (h.overflow_iff hunfinished hpeak limit).1 hfailed
      obtain ⟨s, hs, hdepth⟩ := (h.limited 0).exists_passes hunfinished hpeak hprocess hreturns
      refine ⟨?_, s, hs, hdepth ▸ hpeak'⟩
      rw [hprocess] at hreturns ⊢
      exact shifted_or_accepted_of_advance hreturns
    · rintro ⟨-, s, hs, hdepth⟩
      cases hs with
      | start =>
        have hle := (Table.depth_le_of_simulateFrom hpeak le_rfl).1
        exact (h.overflow_iff hunfinished hpeak limit).2 ⟨hlimit, hdepth.trans_le hle⟩
      | @reduced unfit' x' memory' peak' q hunfinished' h' hpeak' _ hchain =>
        have hle := (depth_le_of_reduces (p := (p.limited 0).trying memory' unfit'.length) hpeak' hchain).1
        exact (h'.overflow_iff hunfinished' hpeak' limit).2 ⟨hlimit, hdepth.trans_le hle⟩
      | last =>
        rw [hprocess] at hdepth
        have hle := depth_advance_le { token with symbol := x } ((p.limited 0).trying memory unfit.length) hpeak log
        exact (h.overflow_iff hunfinished hpeak limit).2 ⟨hlimit, hdepth.trans_le hle⟩

/-! ### Whole runs -/

/-- Calls end in the same way with a traced context. -/
lemma outcomes_traced (p : Parser σ N) (callbacks : List (Callback N)) (calls : List (Nat × Token)) :
    (p.traced callbacks).outcomes calls = p.outcomes calls := by
  induction calls generalizing p callbacks with
  | nil => rfl
  | cons call calls ih =>
    obtain ⟨fuel, token⟩ := call
    obtain ⟨callbacks', hprocess⟩ := p.exists_traced_process callbacks fuel token
    rw [outcomes, outcomes, hprocess]
    exact congrArg _ (ih _ callbacks')

/-- A limit that is set before the first token is exact.  After any calls, the stack stays within it at every moment of
the next call, between two reductions too.  Without a limit that call would try the same symbols, and if it would not
fault, it overflows exactly when it would otherwise have shifted or accepted, but with a stack above the limit at some
moment.

A limit is not noticed before it is met.  Of two limits, where zero is the highest, any calls that do not overflow under
the lower one end in the same way under the higher one, call the same functions of the context, and leave the same
parser behind, its limit apart. -/
theorem limit_is_exact {table : Table} {context : Context σ N} {memory : σ} {p : Parser σ N}
    (hcreate : create table context memory = .ok p) :
    (∀ limit > 0, ∀ (calls : List (Nat × Token)) (fuel : Nat) (token : Token),
      let q := (p.limited limit).after calls
      (∀ s, q.Passes fuel token s → s.depth ≤ limit) ∧
      (q.limited 0).rejections fuel token = q.rejections fuel token ∧
      ((∀ f, ((q.limited 0).process fuel token).outcome ≠ .fault f) →
        ((q.process fuel token).outcome = .failed (.stackOverflow limit) ↔
          (((q.limited 0).process fuel token).outcome = .progress .shifted ∨
            ((q.limited 0).process fuel token).outcome = .progress .accepted) ∧
          ∃ s, (q.limited 0).Passes fuel token s ∧ limit < s.depth))) ∧
    ∀ limit limit', limit' = 0 ∨ 0 < limit ∧ limit ≤ limit' → ∀ calls : List (Nat × Token),
      .failed (.stackOverflow limit) ∉ (p.limited limit).outcomes calls →
        (p.limited limit').outcomes calls = (p.limited limit).outcomes calls ∧
        (p.limited limit').after calls = ((p.limited limit).after calls).limited limit' ∧
        (((p.limited limit').traced []).after calls).memory.2 =
          (((p.limited limit).traced []).after calls).memory.2 := by
  constructor
  · intro limit hlimit calls fuel token q
    have hq : q.limit = limit := ((p.limited limit).matches_after calls).limit
    have hdepth : q.stack.depth ≤ limit := by
      obtain ⟨-, rfl⟩ := create_eq_ok hcreate
      exact depth_after_le hlimit (Nat.zero_le _) calls
    refine ⟨fun s hs => ?_, q.rejections_limited fuel token 0, fun hreturns => ?_⟩
    · rw [← hq] at hlimit hdepth ⊢
      exact hs.depth_le hlimit hdepth
    · have hoverflow := overflow_iff_passes hlimit hreturns
      rwa [limited_eq_self hq] at hoverflow
  · intro limit limit' hle calls hcalls
    obtain ⟨houtcomes, hafter⟩ := after_limited hle hcalls
    refine ⟨houtcomes, hafter, ?_⟩
    rw [← outcomes_traced _ []] at hcalls
    exact congrArg (fun r => r.memory.2) (after_limited (p := p.traced []) hle hcalls).2

/-- After two opening brackets a parser for nested pairs has two frames on its stack.  A closing bracket adds one for
the empty pair inside and one for itself.  Under the limit of three it therefore overflows, though the opening brackets
were read as without a limit. -/
theorem limit_is_exact_nested :
    ∃ c p, Grammar.nested.construct false = .ok c ∧ create c.table Tree.context none = .ok p ∧
      ∃ calls q, calls = [(9, ⟨⟨10⟩, "(", 0⟩), (9, ⟨⟨10⟩, "(", 1⟩)] ∧ q = (p.limited 3).after calls ∧
        (∀ s, q.Passes 9 ⟨⟨11⟩, ")", 2⟩ s → s.depth ≤ 3) ∧
        ((q.limited 0).process 9 ⟨⟨11⟩, ")", 2⟩).outcome = .progress .shifted ∧
        (q.process 9 ⟨⟨11⟩, ")", 2⟩).outcome = .failed (.stackOverflow 3) ∧
        (p.limited 0).outcomes calls = (p.limited 3).outcomes calls := by
  have hrun : (do
      let c ← (Grammar.nested.construct false).toOption
      let p ← (create c.table Tree.context none).toOption
      let calls := [(9, ⟨⟨10⟩, "(", 0⟩), (9, ⟨⟨10⟩, "(", 1⟩)]
      let step := (((p.limited 3).after calls).limited 0).process 9 ⟨⟨11⟩, ")", 2⟩
      some ((p.limited 3).outcomes calls, step.outcome, step.parser.stack.depth)) =
      some ([.progress .shifted, .progress .shifted], .progress .shifted, 4) := by decide +kernel
  obtain ⟨c, hc, hrun⟩ := Option.bind_eq_some_iff.1 hrun
  obtain ⟨p, hp, hrun⟩ := Option.bind_eq_some_iff.1 hrun
  obtain ⟨houtcomes, hrest⟩ := Prod.mk.inj (Option.some.inj hrun)
  obtain ⟨hshifted, hdepth⟩ := Prod.mk.inj hrest
  rw [toOption_eq_some_iff] at hc hp
  generalize [(9, (⟨⟨10⟩, "(", 0⟩ : Token)), (9, ⟨⟨10⟩, "(", 1⟩)] = calls at houtcomes hshifted hdepth ⊢
  obtain ⟨hexact, hunnoticed⟩ := limit_is_exact hp
  obtain ⟨hwithin, -, hoverflow⟩ := hexact 3 (by decide) calls 9 ⟨⟨11⟩, ")", 2⟩
  have hnone : .failed (.stackOverflow 3) ∉ (p.limited 3).outcomes calls := by
    rw [houtcomes]
    decide
  refine ⟨c, p, hc, hp, calls, _, rfl, rfl, hwithin, hshifted, ?_, (hunnoticed 3 0 (Or.inl rfl) calls hnone).1⟩
  exact (hoverflow (by simp [hshifted])).2 ⟨Or.inl hshifted, _, .last, by omega⟩

end Parser

end Lalr
