import Lalr.Fault

/-!
# Settling

The constructions of this library repeat a step until it changes nothing more.  `settle` is that loop.  Its
fuel bounds the number of steps; each caller computes fuel from its input and, should it ever run out, the
loop ends with a fault instead of a half-finished answer.

Main statement: what `settle` returns is left unchanged by the last step.
-/

namespace Lalr

/-- Repeats `step` until it reports that nothing has changed, and counts the steps, the last one included. -/
def settle {α : Type} (step : α → Except Fault (α × Bool)) : Nat → α → Except Fault (α × Nat)
  | 0, _ => .error .unsettled
  | fuel + 1, a => do
    let (b, changed) ← step a
    if changed then
      let (c, count) ← settle step fuel b
      .ok (c, count + 1)
    else
      .ok (b, 1)

/-- The outcome comes from a step that reported no change. -/
theorem exists_unchanged_of_settle {α : Type} {step : α → Except Fault (α × Bool)} {fuel : Nat}
    {a b : α} {count : Nat} (h : settle step fuel a = .ok (b, count)) :
    ∃ c, step c = .ok (b, false) := by
  induction fuel generalizing a count with
  | zero => simp [settle] at h
  | succ fuel ih =>
    rw [settle] at h
    cases hs : step a with
    | error f => simp [hs, bind, Except.bind] at h
    | ok r =>
      obtain ⟨c, changed⟩ := r
      cases changed with
      | false =>
        simp only [hs, bind, Except.bind] at h
        injection h with h
        injection h with hb
        exact ⟨a, hb ▸ hs⟩
      | true =>
        cases hr : settle step fuel c with
        | error f => simp [hs, hr, bind, Except.bind] at h
        | ok q =>
          obtain ⟨d, n⟩ := q
          simp only [hs, hr, bind, Except.bind] at h
          injection h with h
          injection h with hb
          exact ih (hb ▸ hr)

end Lalr
