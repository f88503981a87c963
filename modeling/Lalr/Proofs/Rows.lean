import Lalr.Parser
import Mathlib.Data.List.Sort
import Mathlib.Tactic.Common

/-!
# The rows of a table

A row lists the actions of one state in ascending order of the symbols, and it is determined by them
(`Table.mem_row`, `Table.pairwise_row`).  The symbols whose actions are no gotos are the candidates that a search
for the symbols that fit has to try.
-/

namespace Lalr

/-- In the same state, cells are ordered by the numbers of their symbols. -/
lemma Cell.id_lt_of_compare {a b : Cell} (h : compare a b = .lt) (hstate : a.state = b.state) :
    a.symbol.id < b.symbol.id := by
  have hlex : (compare a.state b.state).then (compare a.symbol.id b.symbol.id) = .lt := h
  rw [hstate, Std.ReflOrd.compare_self] at hlex
  exact Std.compare_eq_lt.1 hlex

namespace Table

variable {t : Table} {x : Symbol}

/-- The symbols of a row are in ascending order. -/
lemma pairwise_row (t : Table) (state : Nat) : (t.row state).Pairwise fun a b => a.1.id < b.1.id := by
  unfold row
  rw [List.pairwise_map, List.pairwise_filter]
  refine t.cells.ordered_keys_toList.imp fun {a b} hlt ha hb => ?_
  exact Cell.id_lt_of_compare hlt ((beq_iff_eq.1 ha).trans (beq_iff_eq.1 hb).symm)

/-- A row holds the actions of its state. -/
lemma mem_row {state : Nat} {action : Action} :
    (x, action) ∈ t.row state ↔ t.action? state x = some action := by
  unfold row action?
  rw [← Std.ExtTreeMap.mem_toList_iff_getElem?_eq_some, List.mem_map]
  constructor
  · rintro ⟨⟨⟨state', x'⟩, action'⟩, hentry, heq⟩
    obtain ⟨hmem, hstate⟩ := List.mem_filter.1 hentry
    obtain ⟨rfl, rfl⟩ := Prod.mk.inj heq
    obtain rfl : state' = state := beq_iff_eq.1 hstate
    exact hmem
  · intro hmem
    exact ⟨(⟨state, x⟩, action), List.mem_filter.2 ⟨hmem, beq_self_eq_true state⟩, rfl⟩

/-- The symbols of a row whose actions are no gotos. -/
def candidates (t : Table) (state : Nat) : List Symbol :=
  (t.row state).filterMap fun (symbol, action) =>
    match action with
    | .goto _ => none
    | _ => some symbol

/-- The candidates are in ascending order. -/
lemma pairwise_candidates (t : Table) (state : Nat) :
    (t.candidates state).Pairwise fun a b => a.id < b.id := by
  refine (t.pairwise_row state).filterMap _ ?_
  rintro ⟨x, action⟩ ⟨y, action'⟩ hlt z hz z' hz'
  obtain rfl : x = z := by cases action <;> simp_all
  obtain rfl : y = z' := by cases action' <;> simp_all
  exact hlt

/-- A symbol is a candidate when it has an action that is no goto. -/
lemma mem_candidates {state : Nat} :
    x ∈ t.candidates state ↔ ∃ action, t.action? state x = some action ∧ ∀ m, action ≠ .goto m := by
  unfold candidates
  rw [List.mem_filterMap]
  constructor
  · rintro ⟨⟨y, action⟩, hmem, heq⟩
    cases action with
    | goto m => cases heq
    | _ =>
      obtain rfl := Option.some.inj heq
      exact ⟨_, mem_row.1 hmem, nofun⟩
  · rintro ⟨action, haction, hgoto⟩
    refine ⟨(x, action), mem_row.2 haction, ?_⟩
    cases action with
    | goto m => exact absurd rfl (hgoto m)
    | _ => rfl

/-- Two lists of symbols in ascending order with the same symbols are equal. -/
lemma eq_of_pairwise_id_lt {xs ys : List Symbol} (hxs : xs.Pairwise fun a b => a.id < b.id)
    (hys : ys.Pairwise fun a b => a.id < b.id) (h : ∀ x, x ∈ xs ↔ x ∈ ys) : xs = ys := by
  have hirrefl : Std.Irrefl fun a b : Symbol => a.id < b.id := ⟨fun _ => Int32.lt_irrefl⟩
  have hantisymm : Std.Antisymm fun a b : Symbol => a.id < b.id :=
    ⟨fun _ _ hab hba => absurd (Int32.lt_trans hab hba) Int32.lt_irrefl⟩
  exact hxs.eq_of_mem_iff hys h

end Table

end Lalr
