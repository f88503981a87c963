import Lalr.Proofs.Flat.RoundTrip

/-!
# Normal forms of flat tables

Many flat forms stand for the same table: the entries may come in any order, lists of competing rules may
overlap, repeat rules or belong to no entry, and the value of accepting may be anything.  A flat form is
canonical when it has none of this freedom (`FlatTable.Canonical`).  What is written is canonical
(`FlatTable.canonical_of_toFlat`), and what is canonical is written again after it was read
(`FlatTable.toFlat_of_canonical`).  Reading and writing therefore bring flat data into canonical form, and leave
them as they are exactly when they have it (`FlatTable.toFlat_eq_iff_canonical`).
-/

namespace Lalr

/-- Entries are ordered by state, then by symbol. -/
def FlatEntry.Precedes (e e' : FlatEntry) : Prop :=
  e.state < e'.state ∨ e.state = e'.state ∧ e.symbol < e'.symbol

/-- The order of entries is that of their cells. -/
lemma FlatEntry.compare_cell_eq_lt_iff {e e' : FlatEntry} : compare e.cell e'.cell = .lt ↔ e.Precedes e' := by
  have hlex : compare e.cell e'.cell =
      (compare e.state.toNat e'.state.toNat).then (compare e.symbol e'.symbol) := rfl
  rw [hlex, Ordering.then_eq_lt, Std.compare_eq_lt, Std.compare_eq_lt, Std.compare_eq_iff_eq, UInt32.toNat_inj,
    ← UInt32.lt_iff_toNat_lt, Precedes]

namespace FlatTable

/-- The entries come in ascending order, accepting has the value zero, the first body begins at the beginning,
and the lists of competing rules are those of the entries, in their order. -/
structure Canonical (f : FlatTable) : Prop where
  ascending : f.entries.Pairwise FlatEntry.Precedes
  accepts : ∀ e ∈ f.entries, e.kind = acceptKind → e.value = 0
  first : f.ruleRhsOffsets.head? = some 0
  lists : Arranged 0 f.entries f.reduceMulti

variable {f : FlatTable} {t : Table}

/-- Entries come in ascending order when the cells that they describe do. -/
lemma pairwise_precedes_iff {pool : List UInt32} {es : List FlatEntry} {l : List (Cell × Action)}
    (h : List.Forall₂ (FlatEntry.Describes pool) es l) :
    es.Pairwise FlatEntry.Precedes ↔ l.Pairwise fun p q => compare p.1 q.1 = .lt := by
  calc es.Pairwise FlatEntry.Precedes
      ↔ (es.map FlatEntry.cell).Pairwise fun c c' => compare c c' = .lt := by
        simp only [List.pairwise_map, FlatEntry.compare_cell_eq_lt_iff]
    _ ↔ (l.map Prod.fst).Pairwise fun c c' => compare c c' = .lt := by rw [map_fst_eq_of_describes h]
    _ ↔ l.Pairwise fun p q => compare p.1 q.1 = .lt := List.pairwise_map

/-- What is written is canonical. -/
lemma canonical_of_toFlat (h : t.toFlat = .ok f) : f.Canonical := by
  obtain ⟨-, -, hfirst, hentries, haccepts, hlists⟩ := Table.toFlat_eq_ok_iff.1 h
  exact ⟨(pairwise_precedes_iff hentries).2 t.cells.ordered_keys_toList, haccepts, hfirst, hlists⟩

/-- A table that was read is the map of the cells that the entries describe, which are within its bounds. -/
lemma exists_describes_of_toTable (h : f.toTable = .ok t) :
    ∃ l, List.Forall₂ (FlatEntry.Describes f.reduceMulti) f.entries l ∧
      (∀ p ∈ l, p.2.Within f.stateCount f.ruleLhs.length) ∧ (l.map Prod.fst).Nodup ∧
      t.cells = .insertMany ∅ l := by
  obtain ⟨-, -, hcells⟩ := toTable_eq_ok_iff.1 h
  obtain ⟨l, hl, hwithin, hnodup, -, hcells⟩ := decodeEntries_eq_ok_iff.1 hcells
  exact ⟨l, hl, hwithin, hnodup, hcells⟩

/-- What is canonical is written again after it was read. -/
lemma toFlat_of_canonical (h : f.toTable = .ok t) (hcanonical : f.Canonical) : t.toFlat = .ok f := by
  obtain ⟨hframed, hstart, -⟩ := toTable_eq_ok_iff.1 h
  obtain ⟨l, hl, -, -, hcells⟩ := exists_describes_of_toTable h
  have hlist : t.cells.toList = l := by
    rw [hcells, toList_insertMany ((pairwise_precedes_iff hl).1 hcanonical.ascending)]
  have hrules : f.Framed (numberFrom 0 t.rules.toList) := by rwa [hframed.numberFrom_eq]
  exact Table.toFlat_eq_ok_iff.2
    ⟨hstart, hrules, hcanonical.first, hlist.symm ▸ hl, hcanonical.accepts, hcanonical.lists⟩

/-- A table that was read has its rules numbered by position. -/
lemma numbered_of_toTable (h : f.toTable = .ok t) : t.Numbered := by
  obtain ⟨hframed, -⟩ := toTable_eq_ok_iff.1 h
  rw [← Table.renumber_eq_iff, Table.renumber_eq_iff_rules, ← Table.toArray_numberFrom, hframed.numberFrom_eq]

/-- The actions of a table that was read refer to what is there. -/
lemma closed_of_toTable (h : f.toTable = .ok t) : t.Closed := by
  obtain ⟨hframed, hstart, -⟩ := toTable_eq_ok_iff.1 h
  obtain ⟨l, hl, hwithin, hnodup, hcells⟩ := exists_describes_of_toTable h
  have hmem : ∀ p, p ∈ l ↔ p ∈ t.cells.toList := fun p => by rw [hcells, mem_toList_insertMany hnodup]
  rw [Table.stateCount_eq hstart hframed hl hmem, hframed.length_ruleLhs] at hwithin
  exact Table.closed_iff.2 fun p hp => hwithin p ((hmem p).2 hp)

/-- A table that was read has its rules numbered by position and refers only to what is there.  It comes back
from every flat form that is written of it; that flat form is the one which was read if and only if the latter
is canonical, and a canonical one can always be written. -/
theorem toFlat_eq_iff_canonical (f : FlatTable) (t : Table) (h : f.toTable = .ok t) :
    t.Numbered ∧ t.Closed ∧
      (∀ g, t.toFlat = .ok g → g.toTable = .ok t ∧ (∀ t', g.toTable = .ok t' → t'.toFlat = .ok g) ∧
        (g = f ↔ f.Canonical)) ∧
      (f.Canonical → t.toFlat = .ok f) := by
  have hnumbered := numbered_of_toTable h
  have hclosed := closed_of_toTable h
  refine ⟨hnumbered, hclosed, fun g hg => ?_, toFlat_of_canonical h⟩
  have hback : g.toTable = .ok t := by
    rw [Table.toTable_of_toFlat hg hclosed, Table.renumber_eq_iff.2 hnumbered]
  refine ⟨hback, fun t' ht' => Except.ok.inj (hback.symm.trans ht') ▸ hg, ?_, fun hcanonical => ?_⟩
  · rintro rfl
    exact canonical_of_toFlat hg
  · exact Except.ok.inj (hg.symm.trans (toFlat_of_canonical h hcanonical))

/-- Flat data with the entries in descending order, two lists of which one is a part of the other, a rule that
belongs to no list and a value of accepting. -/
def overlapping : FlatTable where
  startState := 0
  actionStates := [1, 0, 0]
  actionSymbols := [-1, 11, 10]
  actionKinds := [acceptKind, reduceMultiKind, reduceMultiKind]
  actionValues := [9, 0, 1]
  reduceMulti := [2, 1, 0, 1]
  ruleLhs := [1, 1]
  ruleRhsOffsets := [0, 1, 1]
  ruleRhs := [10]

/-- Reading and writing bring the overlapping lists apart. -/
theorem toFlat_eq_iff_canonical_overlapping : ∃ t g, overlapping.toTable = .ok t ∧ t.toFlat = .ok g ∧
    g.toTable = .ok t ∧ g.reduceMulti = [1, 0, 2, 0, 1] ∧ ¬ overlapping.Canonical := by
  obtain ⟨t, ht, g, hg, hpool⟩ : ∃ t, overlapping.toTable = .ok t ∧ ∃ g, t.toFlat = .ok g ∧
      g.reduceMulti = [1, 0, 2, 0, 1] := ⟨_, rfl, _, rfl, by decide +kernel⟩
  obtain ⟨hback, -, hiff⟩ := (toFlat_eq_iff_canonical overlapping t ht).2.2.1 g hg
  refine ⟨t, g, ht, hg, hback, hpool, fun hcanonical => ?_⟩
  rw [hiff.2 hcanonical] at hpool
  exact absurd hpool (by decide)

end FlatTable

end Lalr
