import Lalr.Proofs.Flat.Bounds

/-!
# Consistent flat tables

Flat data are consistent when the lengths of their arrays fit together, the offsets cut the joined bodies into
one body for each rule, no two entries are about the same cell, and every state, rule and list that an entry
refers to is there (`FlatTable.Consistent`).  Reading accepts all consistent data, and nothing else with one
exception: where there are no rules, the only offset is not looked at (`FlatTable.exists_toTable_iff`,
`FlatTable.exists_toTable_not_consistent`).
-/

namespace Lalr

namespace FlatTable

/-! ### What consistent data are -/

/-- The kind of the entry is known, and the states, rules or list that its value refers to are there. -/
structure Admits (f : FlatTable) (e : FlatEntry) : Prop where
  kind : e.kind ≤ 4
  state : e.kind = shiftKind ∨ e.kind = gotoKind → e.value.toNat < f.stateCount
  rule : e.kind = reduceKind → e.value.toNat < f.ruleLhs.length
  list : e.kind = reduceMultiKind → ∃ count, f.reduceMulti[e.value.toNat]? = some count ∧
    e.value.toNat + 1 + count.toNat ≤ f.reduceMulti.length ∧
    ∀ r ∈ (f.reduceMulti.drop (e.value.toNat + 1)).take count.toNat, r.toNat < f.ruleLhs.length

/-- The arrays fit together, and everything that they refer to is there. -/
structure Consistent (f : FlatTable) : Prop where
  /-- There is one offset more than there are rules. -/
  offsets : f.ruleRhsOffsets.length = f.ruleLhs.length + 1
  /-- The first body begins at the beginning. -/
  first : f.ruleRhsOffsets.head? = some 0
  /-- No body ends before it begins. -/
  ascending : f.ruleRhsOffsets.IsChain (· ≤ ·)
  /-- The last body ends at the end. -/
  last : f.ruleRhsOffsets.getLast?.map UInt32.toNat = some f.ruleRhs.length
  symbols : f.actionSymbols.length = f.actionStates.length
  kinds : f.actionKinds.length = f.actionStates.length
  values : f.actionValues.length = f.actionStates.length
  /-- No two entries are about the same cell. -/
  distinct : (f.entries.map FlatEntry.cell).Nodup
  admits : ∀ e ∈ f.entries, f.Admits e

variable {f : FlatTable}

/-! ### Entries -/

/-- A list begins at an offset when there is a number there and the words that it counts come after it. -/
lemma listedAt_iff {pool numbers : List UInt32} {offset : Nat} :
    ListedAt pool offset numbers ↔ ∃ count, pool[offset]? = some count ∧
      offset + 1 + count.toNat ≤ pool.length ∧ numbers = (pool.drop (offset + 1)).take count.toNat := by
  constructor
  · rintro ⟨count, after, hdrop, hcount⟩
    have htail : pool.drop (offset + 1) = numbers ++ after := by
      rw [← List.drop_drop, hdrop, List.drop_one, List.tail_cons]
    refine ⟨count, ?_, ?_, by rw [htail, hcount, List.take_left]⟩
    · rw [← List.head?_drop, hdrop, List.head?_cons]
    · have hlength := congrArg List.length hdrop
      rw [List.length_drop, List.length_cons, List.length_append] at hlength
      omega
  · rintro ⟨count, hget, hle, rfl⟩
    obtain ⟨hlt, rfl⟩ := List.getElem?_eq_some_iff.1 hget
    refine ⟨pool[offset], (pool.drop (offset + 1)).drop pool[offset].toNat, ?_, ?_⟩
    · rw [List.take_append_drop, List.drop_eq_getElem_cons hlt]
    · rw [List.length_take, List.length_drop]
      omega

/-- An entry stores an action within bounds when its kind is known and what it refers to is there. -/
lemma exists_stores_iff_admits {e : FlatEntry} :
    (∃ a : Action, e.Stores f.reduceMulti a ∧ a.Within f.stateCount f.ruleLhs.length) ↔ f.Admits e := by
  constructor
  · rintro ⟨a, hstores, hwithin⟩
    cases a with
    | accept =>
      have hkind : e.kind = acceptKind := hstores
      constructor <;> simp [hkind]
    | shift n =>
      obtain ⟨hkind, rfl⟩ := hstores
      constructor <;> simp_all
    | reduce k =>
      obtain ⟨hkind, rfl⟩ := hstores
      constructor <;> simp_all
    | reduceMulti set =>
      obtain ⟨hkind, numbers, hlisted, rfl⟩ := hstores
      obtain ⟨count, hcount, hle, rfl⟩ := listedAt_iff.1 hlisted
      refine ⟨by simp [hkind], by simp [hkind], by simp [hkind], fun _ => ⟨count, hcount, hle, fun r hr => ?_⟩⟩
      exact Action.within_reduceMulti.1 hwithin _ (mem_ofList_toNat.2 ⟨r, hr, rfl⟩)
    | goto n =>
      obtain ⟨hkind, rfl⟩ := hstores
      constructor <;> simp_all
  · intro h
    obtain hkind | hkind | hkind | hkind | hkind : e.kind = acceptKind ∨ e.kind = shiftKind ∨
        e.kind = reduceKind ∨ e.kind = reduceMultiKind ∨ e.kind = gotoKind := by
      have hle := UInt8.le_iff_toNat_le.1 h.kind
      simp only [← UInt8.toNat_inj, acceptKind, shiftKind, reduceKind, reduceMultiKind, gotoKind,
        UInt8.reduceToNat] at hle ⊢
      omega
    · exact ⟨.accept, hkind, by simp⟩
    · exact ⟨.shift _, ⟨hkind, rfl⟩, by simpa using h.state (Or.inl hkind)⟩
    · exact ⟨.reduce _, ⟨hkind, rfl⟩, by simpa using h.rule hkind⟩
    · obtain ⟨count, hcount, hle, hall⟩ := h.list hkind
      refine ⟨.reduceMulti _, ⟨hkind, _, listedAt_iff.2 ⟨count, hcount, hle, rfl⟩, rfl⟩, ?_⟩
      rw [Action.within_reduceMulti]
      intro k hk
      obtain ⟨r, hr, rfl⟩ := mem_ofList_toNat.1 hk
      exact hall r hr
    · exact ⟨.goto _, ⟨hkind, rfl⟩, by simpa using h.state (Or.inr hkind)⟩

/-- Entries whose kinds are known and that refer to what is there describe cells with actions within bounds. -/
lemma exists_describes_iff {es : List FlatEntry} :
    (∃ l, List.Forall₂ (FlatEntry.Describes f.reduceMulti) es l ∧
        ∀ p ∈ l, p.2.Within f.stateCount f.ruleLhs.length) ↔ ∀ e ∈ es, f.Admits e := by
  induction es with
  | nil => simp
  | cons e es ih =>
    rw [List.forall_mem_cons, ← exists_stores_iff_admits, ← ih]
    constructor
    · rintro ⟨l, hl, hall⟩
      obtain ⟨p, l, hp, htail, rfl⟩ := List.forall₂_cons_left_iff.1 hl
      obtain ⟨hwithin, hall⟩ := List.forall_mem_cons.1 hall
      exact ⟨⟨p.2, hp.2, hwithin⟩, l, htail, hall⟩
    · rintro ⟨⟨a, hstores, hwithin⟩, l, hl, hall⟩
      exact ⟨(e.cell, a) :: l, .cons ⟨rfl, hstores⟩ hl, List.forall_mem_cons.2 ⟨hwithin, hall⟩⟩

/-- The entries are read when no two are about the same cell and each refers to what is there. -/
lemma exists_decodeEntries_eq_ok_iff :
    (∃ cells, f.decodeEntries f.stateCount 0 f.entries ∅ = .ok cells) ↔
      (f.entries.map FlatEntry.cell).Nodup ∧ ∀ e ∈ f.entries, f.Admits e := by
  simp only [decodeEntries_eq_ok_iff, ← exists_describes_iff]
  constructor
  · rintro ⟨_, l, hl, hall, hnodup, -⟩
    exact ⟨map_fst_eq_of_describes hl ▸ hnodup, l, hl, hall⟩
  · rintro ⟨hnodup, l, hl, hall⟩
    exact ⟨_, l, hl, hall, (map_fst_eq_of_describes hl).symm ▸ hnodup, by simp, rfl⟩

/-! ### Offsets -/

/-- Ascending offsets do not pass the last one. -/
lemma toNat_le_of_isChain {lo : UInt32} {offsets : List UInt32} {n : Nat}
    (h : (lo :: offsets).IsChain (· ≤ ·)) (hlast : (lo :: offsets).getLast?.map UInt32.toNat = some n) :
    lo.toNat ≤ n := by
  induction offsets generalizing lo with
  | nil =>
    rw [List.getLast?_singleton, Option.map_some] at hlast
    exact (Option.some.inj hlast).le
  | cons hi offsets ih =>
    rw [List.isChain_cons_cons] at h
    rw [List.getLast?_cons_cons] at hlast
    exact (UInt32.le_iff_toNat_le.1 h.1).trans (ih h.2 hlast)

/-- From the first offset on, the rules are read and cover the joined bodies when the offsets ascend to the end
of the joined bodies. -/
lemma exists_decodeRules_eq_ok_iff {rhs lhss : List Int32} {n : Nat} (lo : UInt32)
    {offsets : List UInt32} (hlength : offsets.length = lhss.length) :
    (∃ rules, decodeRules rhs n lo.toNat lhss (lo :: offsets) = .ok (rules, rhs.length)) ↔
      (lo :: offsets).IsChain (· ≤ ·) ∧ (lo :: offsets).getLast?.map UInt32.toNat = some rhs.length := by
  induction lhss generalizing n lo offsets with
  | nil =>
    obtain rfl := List.length_eq_zero_iff.1 hlength
    simp [decodeRules]
  | cons lhs lhss ih =>
    obtain ⟨hi, offsets, rfl⟩ := List.exists_cons_of_length_eq_add_one hlength
    rw [List.getLast?_cons_cons, List.isChain_cons_cons, and_assoc,
      ← ih (n := n + 1) hi (by simpa using hlength)]
    simp only [decodeRules_cons_eq_ok_iff, true_and]
    constructor
    · rintro ⟨_, hle, -, rules, hrules, -⟩
      exact ⟨UInt32.le_iff_toNat_le.2 hle, rules, hrules⟩
    · rintro ⟨hle, rules, hrules⟩
      obtain ⟨hchain, hlast⟩ := (ih hi (by simpa using hlength)).1 ⟨rules, hrules⟩
      exact ⟨_, UInt32.le_iff_toNat_le.1 hle, toNat_le_of_isChain hchain hlast, rules, hrules, rfl⟩

/-- Where there are rules, they are read only if the first offset is zero. -/
lemma head?_eq_zero_of_framed {rules : List Rule} (h : f.Framed rules) (hne : f.ruleLhs ≠ []) :
    f.ruleRhsOffsets.head? = some 0 := by
  obtain ⟨lhs, lhss, hlhss⟩ := List.exists_cons_of_ne_nil hne
  obtain ⟨lo, hi, offsets, hoffsets⟩ : ∃ lo hi offsets, f.ruleRhsOffsets = lo :: hi :: offsets := by
    have hlength := h.offsets
    rw [hlhss, List.length_cons] at hlength
    match f.ruleRhsOffsets, hlength with
    | lo :: hi :: offsets, _ => exact ⟨lo, hi, offsets, rfl⟩
  have hrules := h.rules
  rw [hlhss, hoffsets, decodeRules_cons_eq_ok_iff] at hrules
  have hlo : lo = 0 := UInt32.toNat_inj.1 hrules.1
  rw [hoffsets, List.head?_cons, hlo]

/-! ### What reading accepts -/

/-- Data are accepted where the arrays fit together, no two entries are about the same cell, and each entry
refers to what is there. -/
lemma exists_toTable_iff_framed :
    (∃ t, f.toTable = .ok t) ↔ (∃ rules, f.Framed rules) ∧ (f.entries.map FlatEntry.cell).Nodup ∧
      ∀ e ∈ f.entries, f.Admits e := by
  rw [← exists_decodeEntries_eq_ok_iff]
  constructor
  · rintro ⟨t, ht⟩
    obtain ⟨hframed, -, hcells⟩ := toTable_eq_ok_iff.1 ht
    exact ⟨⟨_, hframed⟩, _, hcells⟩
  · rintro ⟨⟨rules, hframed⟩, cells, hcells⟩
    exact ⟨{ start := f.startState.toNat, cells, rules := rules.toArray },
      toTable_eq_ok_iff.2 ⟨hframed, rfl, hcells⟩⟩

/-- Where the first offset is zero, or there are rules and it is looked at, reading accepts exactly the
consistent data. -/
lemma exists_toTable_iff_consistent (hzero : f.ruleLhs = [] → f.ruleRhsOffsets.head? = some 0) :
    (∃ t, f.toTable = .ok t) ↔ f.Consistent := by
  rw [exists_toTable_iff_framed]
  constructor
  · rintro ⟨⟨rules, hframed⟩, hdistinct, hadmits⟩
    have hfirst : f.ruleRhsOffsets.head? = some 0 := by
      by_cases hne : f.ruleLhs = []
      · exact hzero hne
      · exact head?_eq_zero_of_framed hframed hne
    obtain ⟨offsets, hoffsets⟩ := List.head?_eq_some_iff.1 hfirst
    have hlength := hframed.offsets
    have hrules := hframed.rules
    rw [hoffsets] at hlength hrules
    obtain ⟨hascending, hlast⟩ :=
      (exists_decodeRules_eq_ok_iff 0 (by simpa using hlength)).1 ⟨_, hrules⟩
    rw [← hoffsets] at hascending hlast
    exact ⟨hframed.offsets, hfirst, hascending, hlast, hframed.symbols, hframed.kinds, hframed.values,
      hdistinct, hadmits⟩
  · intro h
    obtain ⟨offsets, hoffsets⟩ := List.head?_eq_some_iff.1 h.first
    have hlength := h.offsets
    rw [hoffsets] at hlength
    obtain ⟨rules, hrules⟩ := (exists_decodeRules_eq_ok_iff (n := 0) 0 (by simpa using hlength)).2
      ⟨hoffsets ▸ h.ascending, hoffsets ▸ h.last⟩
    refine ⟨⟨rules, ?_⟩, h.distinct, h.admits⟩
    exact ⟨h.offsets, by rw [hoffsets]; exact hrules, h.symbols, h.kinds, h.values⟩

/-- Without rules, it does not matter what the only offset is. -/
lemma exists_toTable_of_no_rules (hlhs : f.ruleLhs = []) {offset : UInt32}
    (hoffsets : f.ruleRhsOffsets = [offset]) (h : ∃ t, f.toTable = .ok t) (offset' : UInt32) :
    ∃ t, ({ f with ruleRhsOffsets := [offset'] } : FlatTable).toTable = .ok t := by
  rw [exists_toTable_iff_framed] at h ⊢
  obtain ⟨⟨rules, hframed⟩, hdistinct, hadmits⟩ := h
  have hrules := hframed.rules
  rw [hlhs, hoffsets] at hrules
  refine ⟨⟨rules, ?_, ?_, hframed.symbols, hframed.kinds, hframed.values⟩, hdistinct, fun e he => ?_⟩
  · simp [hlhs]
  · rw [hlhs]
    exact hrules
  · obtain ⟨hkind, hstate, hrule, hlist⟩ := hadmits e he
    exact ⟨hkind, hstate, hrule, hlist⟩

/-- Reading leaves no array, whatever the data are.  It accepts all consistent data, and beyond them only data
without rules that would be consistent if their only offset were zero. -/
theorem exists_toTable_iff (f : FlatTable) :
    f.scan.Gives f.toTable ∧
      ((∃ t, f.toTable = .ok t) ↔ f.Consistent ∨ f.ruleLhs = [] ∧
        ∃ offset, f.ruleRhsOffsets = [offset] ∧ ({ f with ruleRhsOffsets := [0] } : FlatTable).Consistent) := by
  refine ⟨f.scan_gives, ?_⟩
  by_cases hlhs : f.ruleLhs = []
  · constructor
    · intro h
      obtain ⟨⟨rules, hframed⟩, -⟩ := exists_toTable_iff_framed.1 h
      obtain ⟨offset, hoffsets⟩ : ∃ offset, f.ruleRhsOffsets = [offset] := by
        rw [← List.length_eq_one_iff, hframed.offsets, hlhs, List.length_nil]
      exact Or.inr ⟨hlhs, offset, hoffsets, (exists_toTable_iff_consistent fun _ => rfl).1
        (exists_toTable_of_no_rules hlhs hoffsets h 0)⟩
    · rintro (h | ⟨-, offset, hoffsets, h⟩)
      · exact (exists_toTable_iff_consistent fun _ => h.first).2 h
      · -- the accepted data have the offset zero; it may be any other one as well
        have hzero := (exists_toTable_iff_consistent fun _ => rfl).2 h
        obtain ⟨t, ht⟩ :=
          exists_toTable_of_no_rules (f := { f with ruleRhsOffsets := [0] }) hlhs rfl hzero offset
        exact ⟨t, by rwa [← hoffsets] at ht⟩
  · rw [exists_toTable_iff_consistent fun hnil => absurd hnil hlhs]
    simp [hlhs]

/-- Data without rules are accepted with an offset that points beyond the empty joined bodies. -/
theorem exists_toTable_not_consistent : ∃ f : FlatTable, (∃ t, f.toTable = .ok t) ∧ ¬ f.Consistent :=
  ⟨{ startState := 0, ruleRhsOffsets := [7] }, ⟨_, rfl⟩, fun h => absurd h.first (by decide)⟩

end FlatTable

end Lalr
