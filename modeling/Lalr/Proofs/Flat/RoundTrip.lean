import Lalr.Proofs.Flat.Writing

/-!
# Tables and their flat forms

A table comes back from its flat form when its rules are numbered by position (`Table.Numbered`) and its actions
refer to states and rules that there are (`Table.Closed`).  If an action does not, reading reports a number out
of range, and rules with other numbers come back numbered by position (`Table.toTable_eq_ok_iff_of_toFlat`).
-/

namespace Lalr

/-! ### Maps and lists of cells -/

/-- The map of a list without repeated cells holds what the list holds. -/
lemma mem_toList_insertMany {l : List (Cell × Action)} (hnodup : (l.map Prod.fst).Nodup) {p : Cell × Action} :
    p ∈ ((∅ : Std.ExtTreeMap Cell Action).insertMany l).toList ↔ p ∈ l := by
  have hdistinct : l.Pairwise fun a b => ¬ compare a.1 b.1 = .eq :=
    (List.pairwise_map.1 hnodup).imp fun hne heq => hne (Std.LawfulEqOrd.eq_of_compare heq)
  have hget : ∀ {cell a}, (cell, a) ∈ l → ((∅ : Std.ExtTreeMap Cell Action).insertMany l)[cell]? = some a :=
    Std.ExtTreeMap.getElem?_insertMany_list_of_mem Std.ReflOrd.compare_self hdistinct
  obtain ⟨cell, a⟩ := p
  rw [Std.ExtTreeMap.mem_toList_iff_getElem?_eq_some]
  refine ⟨fun h => ?_, hget⟩
  have hcell : cell ∈ (∅ : Std.ExtTreeMap Cell Action).insertMany l := by
    rw [Std.ExtTreeMap.mem_iff_isSome_getElem?, h, Option.isSome_some]
  rw [← Std.ExtTreeMap.ofList_eq_insertMany_empty, Std.ExtTreeMap.mem_ofList, List.contains_iff_mem,
    List.mem_map] at hcell
  obtain ⟨⟨_, a'⟩, hmem, rfl⟩ := hcell
  obtain rfl := Option.some.inj (h.symm.trans (hget hmem))
  exact hmem

/-- No cell is listed twice. -/
lemma nodup_map_fst_toList (cells : Std.ExtTreeMap Cell Action) : (cells.toList.map Prod.fst).Nodup := by
  refine List.pairwise_map.2 (Std.ExtTreeMap.distinct_keys_toList.imp fun {p q} hne heq => hne ?_)
  rw [heq, Std.ReflOrd.compare_self]

/-- The list of a map gives the map back. -/
lemma insertMany_toList (cells : Std.ExtTreeMap Cell Action) :
    (∅ : Std.ExtTreeMap Cell Action).insertMany cells.toList = cells := by
  refine Std.ExtTreeMap.ext_getElem? fun cell => Option.ext fun a => ?_
  rw [← Std.ExtTreeMap.mem_toList_iff_getElem?_eq_some, ← Std.ExtTreeMap.mem_toList_iff_getElem?_eq_some,
    mem_toList_insertMany (nodup_map_fst_toList cells)]

/-- The map of a list in ascending order of the cells lists them in this order. -/
lemma toList_insertMany {l : List (Cell × Action)} (h : l.Pairwise fun p q => compare p.1 q.1 = .lt) :
    ((∅ : Std.ExtTreeMap Cell Action).insertMany l).toList = l := by
  have hnodup : (l.map Prod.fst).Nodup := List.pairwise_map.2 (h.imp fun hlt heq => by
    rw [heq, Std.ReflOrd.compare_self] at hlt
    cases hlt)
  have hirrefl : Std.Irrefl fun p q : Cell × Action => compare p.1 q.1 = .lt := ⟨fun p hlt => by
    rw [Std.ReflOrd.compare_self] at hlt
    cases hlt⟩
  have hantisymm : Std.Antisymm fun p q : Cell × Action => compare p.1 q.1 = .lt := ⟨fun p q hpq hqp => by
    rw [Std.OrientedOrd.eq_swap, hqp] at hpq
    cases hpq⟩
  exact List.Pairwise.eq_of_mem_iff Std.ExtTreeMap.ordered_keys_toList h fun p => mem_toList_insertMany hnodup

/-! ### Numbers of states -/

/-- What is below a maximum is below the first number or reaches up to another one. -/
lemma lt_foldl_max_iff {α : Type} (g : α → Nat) (l : List α) (m n : Nat) :
    n < l.foldl (fun count x => max count (g x + 1)) m ↔ n < m ∨ ∃ x ∈ l, n ≤ g x := by
  induction l generalizing m with
  | nil => simp
  | cons x l ih =>
    rw [List.foldl_cons, ih, List.exists_mem_cons_iff, ← or_assoc]
    exact or_congr_left (by omega)

namespace Table

variable {t : Table}

/-- The states of a table are those up to the start and those up to a state with a cell. -/
lemma lt_stateCount_iff {n : Nat} :
    n < t.stateCount ↔ n ≤ t.start ∨ ∃ p ∈ t.cells.toList, n ≤ p.1.state :=
  (lt_foldl_max_iff (fun p : Cell × Action => p.1.state) _ _ _).trans (or_congr_left Nat.lt_succ_iff)

/-- The number of states that flat data speak of is that of a table with the same start and the cells that the
entries describe. -/
lemma stateCount_eq {f : FlatTable} {rules : List Rule} {l : List (Cell × Action)}
    (hstart : f.startState.toNat = t.start) (hframed : f.Framed rules)
    (hl : List.Forall₂ (FlatEntry.Describes f.reduceMulti) f.entries l)
    (hmem : ∀ p, p ∈ l ↔ p ∈ t.cells.toList) :
    f.stateCount = t.stateCount := by
  refine eq_of_forall_lt_iff fun n => ?_
  have hcells : (∃ s ∈ f.actionStates, n ≤ s.toNat) ↔ ∃ p ∈ t.cells.toList, n ≤ p.1.state := by
    rw [← (FlatTable.map_entries hframed.symbols hframed.kinds hframed.values).1]
    have hkeys := map_fst_eq_of_describes hl
    calc (∃ s ∈ f.entries.map FlatEntry.state, n ≤ s.toNat)
        ↔ ∃ c ∈ f.entries.map FlatEntry.cell, n ≤ c.state := by simp [FlatEntry.cell]
      _ ↔ ∃ c ∈ l.map Prod.fst, n ≤ c.state := by rw [hkeys]
      _ ↔ ∃ p ∈ t.cells.toList, n ≤ p.1.state := by simp [hmem]
  rw [lt_stateCount_iff, ← hcells, ← hstart]
  exact (lt_foldl_max_iff UInt32.toNat _ _ _).trans (or_congr_left Nat.lt_succ_iff)

/-! ### From a table to its flat form and back -/

/-- The states and rules that the actions refer to are there. -/
structure Closed (t : Table) : Prop where
  /-- The states that are entered are below the number of states. -/
  states : ∀ p ∈ t.cells.toList, ∀ n ∈ p.2.entered, n < t.stateCount
  /-- The rules to reduce by are below the number of rules. -/
  rules : ∀ p ∈ t.cells.toList, ∀ k ∈ p.2.reduced, k < t.rules.size

/-- A table is closed when all its actions are within its bounds. -/
lemma closed_iff : t.Closed ↔ ∀ p ∈ t.cells.toList, p.2.Within t.stateCount t.rules.size :=
  ⟨fun h p hp => ⟨h.states p hp, h.rules p hp⟩, fun h => ⟨fun p hp => (h p hp).1, fun p hp => (h p hp).2⟩⟩

instance : Decidable t.Closed := decidable_of_iff _ closed_iff.symm

/-- Every rule has its position as its number. -/
def Numbered (t : Table) : Prop :=
  ∀ n (_ : n < t.rules.size), t.rules[n].index = n

instance : Decidable t.Numbered := inferInstanceAs (Decidable (∀ n (_ : n < t.rules.size), t.rules[n].index = n))

/-- The table with its rules numbered by position. -/
def renumber (t : Table) : Table :=
  { t with rules := t.rules.mapIdx fun n r => { r with index := n } }

/-- Numbering from a number on adds the position to it. -/
lemma numberFrom_eq_mapIdx (n : Nat) (rules : List Rule) :
    FlatTable.numberFrom n rules = rules.mapIdx fun i r => { r with index := n + i } := by
  induction rules generalizing n with
  | nil => rfl
  | cons r rules ih => simp [FlatTable.numberFrom, ih, Nat.add_comm, Nat.add_left_comm]

/-- The rules of the renumbered table. -/
lemma toArray_numberFrom (t : Table) : (FlatTable.numberFrom 0 t.rules.toList).toArray = t.renumber.rules := by
  rw [numberFrom_eq_mapIdx, ← List.mapIdx_toArray]
  simp [renumber]

/-- Renumbering changes nothing but the rules. -/
lemma renumber_eq_iff_rules : t.renumber = t ↔ t.renumber.rules = t.rules := by
  cases t
  simp [renumber]

/-- Renumbering changes nothing about a table whose rules are numbered by position. -/
lemma renumber_eq_iff : t.renumber = t ↔ t.Numbered := by
  rw [renumber_eq_iff_rules, Array.ext_iff]
  constructor
  · intro h n hn
    have hrule := h.2 n (by simpa [renumber] using hn) hn
    rw [← hrule]
    simp [renumber]
  · intro h
    have hsame : ∀ (n : Nat) (r : Rule), r.index = n → { r with index := n } = r := by
      rintro _ r rfl
      rfl
    refine ⟨by simp [renumber], fun n _ hn => ?_⟩
    simpa [renumber] using hsame n _ (h n hn)

variable {f : FlatTable}

/-- Reading the flat form of a table reads the entries of its cells. -/
lemma toTable_eq_of_toFlat (h : t.toFlat = .ok f) :
    f.toTable = f.decodeEntries t.stateCount 0 f.entries ∅ >>= fun cells => .ok { t.renumber with cells } := by
  obtain ⟨hstart, hframed, -, hentries, -⟩ := toFlat_eq_ok_iff.1 h
  rw [hframed.toTable_eq, toArray_numberFrom, hstart, stateCount_eq hstart hframed hentries fun _ => Iff.rfl]
  rfl

/-- The flat form has as many left-hand sides as the table has rules. -/
lemma length_ruleLhs_of_toFlat (h : t.toFlat = .ok f) : f.ruleLhs.length = t.rules.size := by
  obtain ⟨-, hframed, -⟩ := toFlat_eq_ok_iff.1 h
  rw [hframed.length_ruleLhs, FlatTable.length_numberFrom, Array.length_toList]

/-- A table whose actions refer to what is there comes back from its flat form with its rules numbered by
position. -/
lemma toTable_of_toFlat (h : t.toFlat = .ok f) (hclosed : t.Closed) : f.toTable = .ok t.renumber := by
  obtain ⟨-, -, -, hentries, -⟩ := toFlat_eq_ok_iff.1 h
  rw [toTable_eq_of_toFlat h, bind_eq_ok]
  refine ⟨t.cells, FlatTable.decodeEntries_eq_ok_iff.2 ⟨t.cells.toList, hentries, ?_, ?_, by simp, ?_⟩, rfl⟩
  · rwa [length_ruleLhs_of_toFlat h, ← closed_iff]
  · exact nodup_map_fst_toList t.cells
  · exact (insertMany_toList t.cells).symm

/-- The flat form of a table with an action that refers to what is not there is reported as out of range. -/
lemma toTable_eq_outOfRange_of_toFlat (h : t.toFlat = .ok f) (hnot : ¬ t.Closed) :
    ∃ what value, f.toTable = .error (.outOfRange what value) := by
  obtain ⟨-, -, -, hentries, -⟩ := toFlat_eq_ok_iff.1 h
  have hout : ¬ ∀ p ∈ t.cells.toList, p.2.Within t.stateCount f.ruleLhs.length := by
    rwa [length_ruleLhs_of_toFlat h, ← closed_iff]
  have hfresh : ∀ p ∈ t.cells.toList, p.1 ∉ (∅ : Std.ExtTreeMap Cell Action) := by simp
  obtain ⟨what, value, herror⟩ :=
    FlatTable.decodeEntries_eq_outOfRange hentries (nodup_map_fst_toList t.cells) hfresh hout
  refine ⟨what, value, ?_⟩
  rw [toTable_eq_of_toFlat h, bind_eq_error]
  exact Or.inl herror

/-- A table that has a flat form comes back from it if and only if its rules are numbered by position and its
actions refer to states and rules that are there.  If an action does not, a number is reported as out of range,
and if only the numbers of the rules are different, the table comes back with its rules numbered by position. -/
theorem toTable_eq_ok_iff_of_toFlat (t : Table) (f : FlatTable) (h : t.toFlat = .ok f) :
    (f.toTable = .ok t ↔ t.Numbered ∧ t.Closed) ∧
      (¬ t.Closed → ∃ what value, f.toTable = .error (.outOfRange what value)) ∧
      (t.Closed → f.toTable = .ok t.renumber) := by
  refine ⟨?_, toTable_eq_outOfRange_of_toFlat h, toTable_of_toFlat h⟩
  by_cases hclosed : t.Closed
  · rw [toTable_of_toFlat h hclosed, Except.ok.injEq, renumber_eq_iff]
    simp [hclosed]
  · obtain ⟨what, value, herror⟩ := toTable_eq_outOfRange_of_toFlat h hclosed
    rw [herror]
    simp [hclosed]

/-- A table with two states in which no rule, one rule and two rules compete. -/
def rivals : Table :=
  .ofList 0 [(⟨0, ⟨10⟩⟩, .shift 1), (⟨0, ⟨11⟩⟩, .reduceMulti ∅), (⟨0, ⟨1⟩⟩, .goto 1),
    (⟨1, ⟨10⟩⟩, .reduceMulti (.ofList [1, 0])), (⟨1, ⟨11⟩⟩, .reduceMulti (.ofList [1])), (⟨1, ⟨-1⟩⟩, .accept),
    (⟨1, ⟨12⟩⟩, .reduce 0)] #[⟨0, ⟨1⟩, [⟨10⟩]⟩, ⟨1, ⟨1⟩, []⟩]

/-- Competing rules come back from the flat form, however many there are. -/
theorem toTable_toFlat_rivals : ∃ f, rivals.toFlat = .ok f ∧ f.reduceMulti = [0, 2, 0, 1, 1, 1] ∧
    f.toTable = .ok rivals := by
  obtain ⟨f, hf, hpool⟩ : ∃ f, rivals.toFlat = .ok f ∧ f.reduceMulti = [0, 2, 0, 1, 1, 1] :=
    ⟨_, rfl, by decide +kernel⟩
  exact ⟨f, hf, hpool, (toTable_eq_ok_iff_of_toFlat rivals f hf).1.2 ⟨by decide +kernel, by decide +kernel⟩⟩

end Table

end Lalr
