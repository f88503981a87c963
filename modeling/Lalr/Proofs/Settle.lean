import Lalr.Fixpoint
import Mathlib.Data.List.Forall2
import Mathlib.Tactic.Common

/-!
# Computations that may fail, and loops that settle

The constructions return their faults as values.  The first block peels such computations apart: a
sequence succeeds when its parts do, and a traversal succeeds when every element does.

The second block is about `settle`, the loop behind all the fixpoints of the library.  What a step
preserves holds of the outcome (`settle_preserves`), and a step whose changes raise a bounded weight
settles before the fuel runs out (`exists_settle_eq_ok`).  The last block compares a loop with another one
that takes the images of its steps and may settle sooner (`settle_eq_map`).
-/

namespace Lalr

/-! ### Sequences and traversals -/

/-- A sequence of two computations succeeds when the first one does and the second one does on what
it returns. -/
lemma bind_eq_ok {ε α β : Type} {x : Except ε α} {f : α → Except ε β} {b : β} :
    (x >>= f) = .ok b ↔ ∃ a, x = .ok a ∧ f a = .ok b := by
  cases x with
  | error e => simp [bind, Except.bind]
  | ok a => simp [bind, Except.bind]

/-- A sequence of two computations fails when the first one does or the second one does on what it
returns. -/
lemma bind_eq_error {ε α β : Type} {x : Except ε α} {f : α → Except ε β} {e : ε} :
    (x >>= f) = .error e ↔ x = .error e ∨ ∃ a, x = .ok a ∧ f a = .error e := by
  cases x with
  | error e => simp [bind, Except.bind]
  | ok a => simp [bind, Except.bind]

/-- A computation whose result is passed on to a function succeeds when it does. -/
lemma map_eq_ok {ε α β : Type} {x : Except ε α} {f : α → β} {b : β} :
    (f <$> x) = .ok b ↔ ∃ a, x = .ok a ∧ f a = b := by
  cases x with
  | error e => simp [Functor.map, Except.map]
  | ok a => simp [Functor.map, Except.map]

/-- A computation whose result is passed on to a function fails when it does. -/
lemma map_eq_error {ε α β : Type} {x : Except ε α} {f : α → β} {e : ε} :
    (f <$> x) = .error e ↔ x = .error e := by
  cases x with
  | error e => simp [Functor.map, Except.map]
  | ok a => simp [Functor.map, Except.map]

/-- The option of a computation holds what the computation returns. -/
lemma toOption_eq_some_iff {ε α : Type} {x : Except ε α} {a : α} : x.toOption = some a ↔ x = .ok a := by
  cases x with
  | error e => simp [Except.toOption]
  | ok b => simp [Except.toOption]

/-- A traversal that succeeds pairs each element with what it returns. -/
lemma mapM_eq_ok {ε α β : Type} {f : α → Except ε β} {xs : List α} {ys : List β} :
    xs.mapM f = .ok ys ↔ List.Forall₂ (fun x y => f x = .ok y) xs ys := by
  induction xs generalizing ys with
  | nil =>
    rw [List.mapM_nil, List.forall₂_nil_left_iff]
    exact ⟨fun h => (Except.ok.inj h).symm, fun h => h ▸ rfl⟩
  | cons x xs ih =>
    rw [List.mapM_cons, bind_eq_ok, List.forall₂_cons_left_iff]
    constructor
    · rintro ⟨y, hy, h⟩
      obtain ⟨zs, hzs, h⟩ := bind_eq_ok.1 h
      exact ⟨y, zs, hy, ih.1 hzs, (Except.ok.inj h).symm⟩
    · rintro ⟨y, zs, hy, hzs, rfl⟩
      exact ⟨y, hy, bind_eq_ok.2 ⟨zs, ih.2 hzs, rfl⟩⟩

/-- A traversal of elements that all succeed succeeds. -/
lemma exists_mapM_eq_ok {ε α β : Type} {f : α → Except ε β} {xs : List α}
    (h : ∀ x ∈ xs, ∃ y, f x = .ok y) : ∃ ys, xs.mapM f = .ok ys := by
  induction xs with
  | nil => exact ⟨[], rfl⟩
  | cons x xs ih =>
    obtain ⟨y, hy⟩ := h x List.mem_cons_self
    obtain ⟨ys, hys⟩ := ih fun z hz => h z (List.mem_cons_of_mem x hz)
    refine ⟨y :: ys, mapM_eq_ok.2 (.cons hy (mapM_eq_ok.1 hys))⟩

/-- A traversal fails only where one of its elements does. -/
lemma exists_of_mapM_eq_error {ε α β : Type} {f : α → Except ε β} {xs : List α} {e : ε}
    (h : xs.mapM f = .error e) : ∃ x ∈ xs, f x = .error e := by
  induction xs with
  | nil => cases h
  | cons x xs ih =>
    rw [List.mapM_cons] at h
    rcases bind_eq_error.1 h with hx | ⟨y, -, h⟩
    · exact ⟨x, List.mem_cons_self, hx⟩
    · rcases bind_eq_error.1 h with h | ⟨ys, -, h⟩
      · obtain ⟨z, hz, hfz⟩ := ih h
        exact ⟨z, List.mem_cons_of_mem x hz, hfz⟩
      · cases h

/-- What a traversal returns comes from the elements. -/
lemma mem_of_mapM_eq_ok {ε α β : Type} {f : α → Except ε β} {xs : List α} {ys : List β}
    (h : xs.mapM f = .ok ys) {y : β} : y ∈ ys ↔ ∃ x ∈ xs, f x = .ok y := by
  induction mapM_eq_ok.1 h with
  | nil => simp
  | cons hxy hall ih =>
    have htail := ih (mapM_eq_ok.2 hall)
    rw [List.mem_cons, htail, List.exists_mem_cons_iff]
    refine or_congr_left ⟨fun hy => hy ▸ hxy, fun hy => ?_⟩
    exact Except.ok.inj (hy.symm.trans hxy)

/-- A traversal that succeeds does so on each element. -/
lemma exists_mem_of_mapM_eq_ok {ε α β : Type} {f : α → Except ε β} {xs : List α} {ys : List β}
    (h : xs.mapM f = .ok ys) {x : α} (hx : x ∈ xs) : ∃ y ∈ ys, f x = .ok y := by
  induction mapM_eq_ok.1 h with
  | nil => cases hx
  | cons hxy hall ih =>
    rcases List.mem_cons.1 hx with rfl | hx
    · exact ⟨_, List.mem_cons_self, hxy⟩
    · obtain ⟨y, hy, hfy⟩ := ih (mapM_eq_ok.2 hall) hx
      exact ⟨y, List.mem_cons_of_mem _ hy, hfy⟩

/-- A traversal of elements that all succeed with something known about what they return succeeds, and this is
known about what it returns. -/
lemma exists_mapM_eq_ok_and {ε α β : Type} {f : α → Except ε β} {xs : List α} {P : α → β → Prop}
    (h : ∀ x ∈ xs, ∃ y, f x = .ok y ∧ P x y) :
    ∃ ys, xs.mapM f = .ok ys ∧ (∀ y ∈ ys, ∃ x ∈ xs, P x y) ∧ ∀ x ∈ xs, ∃ y ∈ ys, P x y := by
  obtain ⟨ys, hys⟩ := exists_mapM_eq_ok fun x hx => (h x hx).imp fun _ hy => hy.1
  refine ⟨ys, hys, fun y hy => ?_, fun x hx => ?_⟩
  · obtain ⟨x, hx, hxy⟩ := (mem_of_mapM_eq_ok hys).1 hy
    obtain ⟨y', hxy', hP⟩ := h x hx
    obtain rfl := Except.ok.inj (hxy.symm.trans hxy')
    exact ⟨x, hx, hP⟩
  · obtain ⟨y, hxy, hP⟩ := h x hx
    exact ⟨y, (mem_of_mapM_eq_ok hys).2 ⟨x, hx, hxy⟩, hP⟩

/-- What a traversal returns stands where its element stands. -/
lemma getElem?_of_mapM_eq_ok {ε α β : Type} {f : α → Except ε β} {xs : List α} {ys : List β}
    (h : xs.mapM f = .ok ys) {n : Nat} {y : β} (hy : ys[n]? = some y) :
    ∃ x, xs[n]? = some x ∧ f x = .ok y := by
  have hall := mapM_eq_ok.1 h
  obtain ⟨hlt, rfl⟩ := List.getElem?_eq_some_iff.1 hy
  have hlt' : n < xs.length := hall.length_eq ▸ hlt
  exact ⟨xs[n], List.getElem?_eq_getElem hlt', hall.get hlt' hlt⟩

/-- A traversal of images returns the images of what the elements return, if each element does so. -/
lemma mapM_map_eq_ok {ε α β γ δ : Type} {f : α → Except ε β} {f' : γ → Except ε δ} {a : α → γ} {b : β → δ}
    {xs : List α} {ys : List β} (hf : ∀ x ∈ xs, ∀ y, f x = .ok y → f' (a x) = .ok (b y))
    (h : xs.mapM f = .ok ys) : (xs.map a).mapM f' = .ok (ys.map b) := by
  rw [mapM_eq_ok, List.forall₂_map_left_iff, List.forall₂_map_right_iff]
  induction mapM_eq_ok.1 h with
  | nil => exact .nil
  | cons hxy hall ih =>
    exact .cons (hf _ List.mem_cons_self _ hxy)
      (ih (fun x hx => hf x (List.mem_cons_of_mem _ hx)) (mapM_eq_ok.2 hall))

/-! ### Loops that settle -/

variable {α : Type} {step : α → Except Fault (α × Bool)}

/-- One round of the loop. -/
lemma settle_succ_eq_ok {fuel count : Nat} {a b : α}
    (h : settle step (fuel + 1) a = .ok (b, count)) :
    step a = .ok (b, false) ∧ count = 1 ∨
      ∃ c n, step a = .ok (c, true) ∧ settle step fuel c = .ok (b, n) ∧ count = n + 1 := by
  rw [settle, bind_eq_ok] at h
  obtain ⟨⟨c, changed⟩, hs, h⟩ := h
  cases changed with
  | false =>
    obtain ⟨rfl, rfl⟩ := Prod.mk.inj (Except.ok.inj h)
    exact Or.inl ⟨hs, rfl⟩
  | true =>
    obtain ⟨⟨d, n⟩, hd, h⟩ := bind_eq_ok.1 h
    obtain ⟨rfl, rfl⟩ := Prod.mk.inj (Except.ok.inj h)
    exact Or.inr ⟨c, n, hs, hd, rfl⟩

/-- A loop that settles takes a step. -/
lemma count_pos_of_settle {fuel count : Nat} {a b : α} (h : settle step fuel a = .ok (b, count)) :
    0 < count := by
  cases fuel with
  | zero => simp [settle] at h
  | succ fuel =>
    rcases settle_succ_eq_ok h with ⟨-, rfl⟩ | ⟨c, n, -, -, rfl⟩
    · exact Nat.one_pos
    · exact Nat.succ_pos n

/-- A loop takes more than one step exactly when its first step reports a change. -/
lemma one_lt_count_iff {fuel count : Nat} {a b : α} (h : settle step fuel a = .ok (b, count)) :
    1 < count ↔ ∃ c, step a = .ok (c, true) := by
  cases fuel with
  | zero => simp [settle] at h
  | succ fuel =>
    rcases settle_succ_eq_ok h with ⟨hs, rfl⟩ | ⟨c, n, hs, hc, rfl⟩
    · simp [hs]
    · have hpos := count_pos_of_settle hc
      simp [hs, hpos]

/-- What every step preserves holds before the last step, which reports no change. -/
lemma exists_last_of_settle {P : α → Prop}
    (hstep : ∀ a b changed, P a → step a = .ok (b, changed) → P b) {fuel count : Nat} {a b : α}
    (ha : P a) (h : settle step fuel a = .ok (b, count)) : ∃ c, P c ∧ step c = .ok (b, false) := by
  induction fuel generalizing a count with
  | zero => simp [settle] at h
  | succ fuel ih =>
    rcases settle_succ_eq_ok h with ⟨hs, -⟩ | ⟨c, n, hs, hc, -⟩
    · exact ⟨a, ha, hs⟩
    · exact ih (hstep a c true ha hs) hc

/-- What every step preserves holds of the outcome. -/
lemma settle_preserves {P : α → Prop}
    (hstep : ∀ a b changed, P a → step a = .ok (b, changed) → P b) {fuel count : Nat} {a b : α}
    (ha : P a) (h : settle step fuel a = .ok (b, count)) : P b := by
  obtain ⟨c, hc, hs⟩ := exists_last_of_settle hstep ha h
  exact hstep c b false hc hs

/-- A loop whose steps succeed, and raise a bounded weight whenever they change anything, settles. -/
lemma exists_settle_eq_ok {P : α → Prop} (weight : α → Nat) (bound : Nat)
    (hstep : ∀ a, P a → ∃ b changed, step a = .ok (b, changed) ∧ P b ∧
      (changed = true → weight a < weight b))
    (hbound : ∀ a, P a → weight a ≤ bound) {fuel : Nat} {a : α} (ha : P a)
    (hfuel : bound < fuel + weight a) : ∃ b count, settle step fuel a = .ok (b, count) := by
  induction fuel generalizing a with
  | zero =>
    have := hbound a ha
    omega
  | succ fuel ih =>
    obtain ⟨b, changed, hs, hb, hweight⟩ := hstep a ha
    cases changed with
    | false => exact ⟨b, 1, by rw [settle, hs]; rfl⟩
    | true =>
      have hlt := hweight rfl
      obtain ⟨c, n, hc⟩ := ih hb (by omega)
      refine ⟨c, n + 1, ?_⟩
      rw [settle, bind_eq_ok]
      exact ⟨(b, true), hs, bind_eq_ok.2 ⟨(c, n), hc, rfl⟩⟩

/-! ### Loops that run side by side -/

section

variable {α β : Type} {step : α → Except Fault (α × Bool)} {step' : β → Except Fault (β × Bool)} {f : α → β}
  {P : α → Prop}
  (hstep : ∀ a b changed, P a → step a = .ok (b, changed) →
    P b ∧ ∃ changed', step' (f a) = .ok (f b, changed') ∧ (changed' = false → f b = f a) ∧
      (changed = false → changed' = false))
include hstep

/-- What a loop does after the image has settled does not change the image. -/
lemma map_eq_of_settle {fuel count : Nat} {a b : α} (ha : P a) (hstop : step' (f a) = .ok (f a, false))
    (h : settle step fuel a = .ok (b, count)) : f b = f a := by
  refine (settle_preserves (P := fun c => P c ∧ f c = f a) (fun c d changed hc hd => ?_) ⟨ha, rfl⟩ h).2
  obtain ⟨hP, changed', hd', -⟩ := hstep c d changed hc.1 hd
  rw [hc.2, hstop] at hd'
  exact ⟨hP, (Prod.mk.inj (Except.ok.inj hd')).1.symm⟩

/-- A loop that takes the images of the steps of another one, and stops at the latest when the other one does, comes
to the image of its outcome. -/
lemma settle_eq_map {fuel fuel' count count' : Nat} {a b : α} {c : β} (ha : P a)
    (h : settle step fuel a = .ok (b, count)) (h' : settle step' fuel' (f a) = .ok (c, count')) : c = f b := by
  induction fuel generalizing a fuel' count count' with
  | zero => simp [settle] at h
  | succ fuel ih =>
    cases fuel' with
    | zero => simp [settle] at h'
    | succ fuel' =>
      rcases settle_succ_eq_ok h with ⟨hs, -⟩ | ⟨d, n, hs, hd, -⟩
      · obtain ⟨-, changed', hs', -, hlast⟩ := hstep a b false ha hs
        obtain rfl := hlast rfl
        rcases settle_succ_eq_ok h' with ⟨hc, -⟩ | ⟨e, m, hc, -, -⟩
        · exact (Prod.mk.inj (Except.ok.inj (hc.symm.trans hs'))).1
        · cases hc.symm.trans hs'
      · obtain ⟨hP, changed', hs', hsame, -⟩ := hstep a d true ha hs
        rcases settle_succ_eq_ok h' with ⟨hc, -⟩ | ⟨e, m, hc, he, -⟩
        · -- the image has settled, so the rest of the other loop leaves it as it is
          obtain ⟨rfl, rfl⟩ := Prod.mk.inj (Except.ok.inj (hc.symm.trans hs'))
          have hfix := hsame rfl
          rw [← hfix] at hs'
          exact (map_eq_of_settle hstep hP hs' hd).symm
        · obtain ⟨rfl, -⟩ := Prod.mk.inj (Except.ok.inj (hc.symm.trans hs'))
          exact ih hP hd he

end

end Lalr
