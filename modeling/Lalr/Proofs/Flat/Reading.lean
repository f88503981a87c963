import Lalr.Proofs.Settle
import Lalr.Table.Flat
import Mathlib.Data.List.Chain

/-!
# Reading flat tables

An entry of a flat table stands for a cell and an action.  `FlatEntry.Stores` says which action that is,
whatever the number of states and rules, and `Action.Within` says that the states and rules of an action exist.
Reading an entry gives the action that it stores when this is within bounds
(`FlatTable.decodeAction_eq_ok_iff`), and reports a number out of range otherwise.

From one entry this goes on to all of them (`FlatTable.decodeEntries_eq_ok_iff`), and beside it the offsets cut
the joined bodies into rules (`FlatTable.decodeRules_eq_ok_iff`).  Both together say which table is read
(`FlatTable.toTable_eq_ok_iff`).
-/

namespace Lalr

/-! ### The numbers of an action -/

namespace Action

/-- The states that an action enters. -/
def entered : Action → List Nat
  | shift state | goto state => [state]
  | _ => []

/-- The rules that an action reduces by. -/
def reduced : Action → List Nat
  | reduce rule => [rule]
  | reduceMulti rules => rules.toList
  | _ => []

/-- The states and rules of an action exist, where there are so many of them. -/
def Within (states rules : Nat) (a : Action) : Prop :=
  (∀ n ∈ a.entered, n < states) ∧ ∀ k ∈ a.reduced, k < rules

variable {states rules n k : Nat} {set : RuleSet}

instance {a : Action} : Decidable (a.Within states rules) := inferInstanceAs (Decidable (_ ∧ _))

/-- Accepting is within any bounds. -/
@[simp] lemma within_accept : accept.Within states rules := by
  simp [Within, entered, reduced]

/-- A shift is within bounds when its state exists. -/
@[simp] lemma within_shift : (shift n).Within states rules ↔ n < states := by
  simp [Within, entered, reduced]

/-- A reduction is within bounds when its rule exists. -/
@[simp] lemma within_reduce : (reduce k).Within states rules ↔ k < rules := by
  simp [Within, entered, reduced]

/-- Competing reductions are within bounds when their rules exist. -/
@[simp] lemma within_reduceMulti : (reduceMulti set).Within states rules ↔ ∀ k ∈ set, k < rules := by
  simp [Within, entered, reduced]

/-- A goto is within bounds when its state exists. -/
@[simp] lemma within_goto : (goto n).Within states rules ↔ n < states := by
  simp [Within, entered, reduced]

end Action

/-! ### What an entry stores -/

/-- From the offset on there are a number of words and then so many words. -/
def ListedAt (pool : List UInt32) (offset : Nat) (numbers : List UInt32) : Prop :=
  ∃ count after, pool.drop offset = count :: (numbers ++ after) ∧ count.toNat = numbers.length

/-- At most one list begins at an offset. -/
lemma ListedAt.unique {pool numbers numbers' : List UInt32} {offset : Nat} (h : ListedAt pool offset numbers)
    (h' : ListedAt pool offset numbers') : numbers = numbers' := by
  obtain ⟨count, after, hdrop, hcount⟩ := h
  obtain ⟨count', after', hdrop', hcount'⟩ := h'
  obtain ⟨rfl, heq⟩ := List.cons.inj (hdrop.symm.trans hdrop')
  exact (List.append_inj heq (hcount.symm.trans hcount')).1

namespace FlatEntry

/-- The cell of an entry. -/
def cell (e : FlatEntry) : Cell := ⟨e.state.toNat, ⟨e.symbol⟩⟩

/-- The entry stores the action, with the lists of competing rules in `pool`. -/
def Stores (pool : List UInt32) (e : FlatEntry) : Action → Prop
  | .accept => e.kind = FlatTable.acceptKind
  | .shift state => e.kind = FlatTable.shiftKind ∧ e.value.toNat = state
  | .reduce rule => e.kind = FlatTable.reduceKind ∧ e.value.toNat = rule
  | .reduceMulti rules => e.kind = FlatTable.reduceMultiKind ∧
      ∃ numbers, ListedAt pool e.value.toNat numbers ∧ rules = .ofList (numbers.map UInt32.toNat)
  | .goto state => e.kind = FlatTable.gotoKind ∧ e.value.toNat = state

/-- The entry stores the action of a cell. -/
def Describes (pool : List UInt32) (e : FlatEntry) (p : Cell × Action) : Prop :=
  e.cell = p.1 ∧ e.Stores pool p.2

end FlatEntry

/-- Entries are about the cells that they describe. -/
lemma map_fst_eq_of_describes {pool : List UInt32} {es : List FlatEntry} {l : List (Cell × Action)}
    (h : List.Forall₂ (FlatEntry.Describes pool) es l) : l.map Prod.fst = es.map FlatEntry.cell := by
  induction h with
  | nil => rfl
  | cons hp _ ih => rw [List.map_cons, List.map_cons, ih, hp.1]

namespace FlatTable

/-- A word is read as an index when it is below the limit. -/
lemma index_eq_ok_iff {what : String} {value : UInt32} {limit n : Nat} :
    index what value limit = .ok n ↔ value.toNat = n ∧ n < limit := by
  unfold index
  split <;> rename_i h
  · simpa using fun heq => heq ▸ h
  · simpa using fun heq => heq ▸ Nat.le_of_not_lt h

/-- A word that is no index is reported as out of range. -/
lemma index_eq_error {what : String} {value : UInt32} {limit : Nat} (h : ¬ value.toNat < limit) :
    index what value limit = .error (.outOfRange what value.toNat) :=
  if_neg h

/-- A word is reported only when it is not below the limit. -/
lemma eq_outOfRange_of_index {what : String} {value : UInt32} {limit : Nat} {err : FlatError}
    (h : index what value limit = .error err) : err = .outOfRange what value.toNat := by
  unfold index at h
  split at h
  · cases h
  · exact (Except.error.inj h).symm

/-- Words are read as indices when all of them are below the limit. -/
lemma mapM_index_eq_ok_iff {what : String} {limit : Nat} {numbers : List UInt32} {rules : List Nat} :
    (numbers.mapM fun r => index what r limit) = .ok rules ↔
      rules = numbers.map UInt32.toNat ∧ ∀ r ∈ numbers, r.toNat < limit := by
  rw [mapM_eq_ok]
  induction numbers generalizing rules with
  | nil => simp
  | cons r numbers ih =>
    rw [List.forall₂_cons_left_iff, List.map_cons, List.forall_mem_cons]
    constructor
    · rintro ⟨_, _, hr, hnumbers, rfl⟩
      obtain ⟨rfl, hlt⟩ := index_eq_ok_iff.1 hr
      obtain ⟨rfl, hall⟩ := ih.1 hnumbers
      exact ⟨rfl, hlt, hall⟩
    · rintro ⟨rfl, hr, hall⟩
      exact ⟨_, _, index_eq_ok_iff.2 ⟨rfl, hr⟩, ih.2 ⟨rfl, hall⟩, rfl⟩

/-- The set of numbers given as words. -/
lemma mem_ofList_toNat {numbers : List UInt32} {k : Nat} :
    k ∈ (.ofList (numbers.map UInt32.toNat) : RuleSet) ↔ ∃ r ∈ numbers, r.toNat = k := by
  rw [Std.ExtTreeSet.mem_ofList, List.contains_iff_mem, List.mem_map]

attribute [simp] acceptKind shiftKind reduceKind reduceMultiKind gotoKind

variable {f : FlatTable}

/-- Reading the competing rules at an offset reads the list there. -/
lemma decodeMulti_of_listedAt {value : UInt32} {numbers : List UInt32}
    (h : ListedAt f.reduceMulti value.toNat numbers) :
    f.decodeMulti value =
      (fun rules => (.ofList rules : RuleSet)) <$>
        numbers.mapM fun r => index "reduce rule" r f.ruleLhs.length := by
  obtain ⟨count, after, hdrop, hcount⟩ := h
  have hlt : value.toNat < f.reduceMulti.length := by
    rw [← List.drop_eq_nil_iff.not.trans Nat.not_le, hdrop]
    exact List.cons_ne_nil _ _
  have hlength : ¬ (numbers ++ after).length < count.toNat := by simp [hcount]
  unfold decodeMulti
  rw [index_eq_ok_iff.2 ⟨rfl, hlt⟩]
  simp only [bind, Except.bind, hdrop]
  rw [if_neg hlength, hcount, List.take_left]
  rfl

/-- Competing rules are read only where a list begins. -/
lemma exists_listedAt_of_decodeMulti {value : UInt32} {rules : RuleSet}
    (h : f.decodeMulti value = .ok rules) : ∃ numbers, ListedAt f.reduceMulti value.toNat numbers := by
  unfold decodeMulti at h
  obtain ⟨offset, hoffset, h⟩ := bind_eq_ok.1 h
  obtain ⟨rfl, -⟩ := index_eq_ok_iff.1 hoffset
  split at h
  · cases h
  · rename_i count rest hdrop
    split at h
    · cases h
    · rename_i hlength
      refine ⟨rest.take count.toNat, count, rest.drop count.toNat, ?_, ?_⟩
      · rw [List.take_append_drop, hdrop]
      · rw [List.length_take, Nat.min_eq_left (Nat.le_of_not_lt hlength)]

/-- The competing rules at an offset are read when a list begins there and its rules exist. -/
lemma decodeMulti_eq_ok_iff {value : UInt32} {rules : RuleSet} :
    f.decodeMulti value = .ok rules ↔
      (∃ numbers, ListedAt f.reduceMulti value.toNat numbers ∧ rules = .ofList (numbers.map UInt32.toNat)) ∧
        ∀ k ∈ rules, k < f.ruleLhs.length := by
  constructor
  · intro h
    obtain ⟨numbers, hlisted⟩ := exists_listedAt_of_decodeMulti h
    rw [decodeMulti_of_listedAt hlisted, map_eq_ok] at h
    obtain ⟨_, hnumbers, rfl⟩ := h
    obtain ⟨rfl, hall⟩ := mapM_index_eq_ok_iff.1 hnumbers
    refine ⟨⟨numbers, hlisted, rfl⟩, fun k hk => ?_⟩
    obtain ⟨r, hr, rfl⟩ := mem_ofList_toNat.1 hk
    exact hall r hr
  · rintro ⟨⟨numbers, hlisted, rfl⟩, hall⟩
    rw [decodeMulti_of_listedAt hlisted, map_eq_ok]
    exact ⟨_, mapM_index_eq_ok_iff.2 ⟨rfl, fun r hr => hall _ (mem_ofList_toNat.2 ⟨r, hr, rfl⟩)⟩, rfl⟩

/-- An entry is read as the action that it stores when this is within bounds. -/
lemma decodeAction_eq_ok_iff {states position : Nat} {e : FlatEntry} {a : Action} :
    f.decodeAction states position e = .ok a ↔
      e.Stores f.reduceMulti a ∧ a.Within states f.ruleLhs.length := by
  unfold decodeAction
  split_ifs with haccept hshift hreduce hmulti hgoto
  · cases a <;> simp [FlatEntry.Stores, haccept]
  · cases a <;> simp [FlatEntry.Stores, hshift, map_eq_ok, index_eq_ok_iff]
  · cases a <;> simp [FlatEntry.Stores, hreduce, map_eq_ok, index_eq_ok_iff]
  · cases a <;> simp [FlatEntry.Stores, hmulti, map_eq_ok, decodeMulti_eq_ok_iff]
  · cases a <;> simp [FlatEntry.Stores, hgoto, map_eq_ok, index_eq_ok_iff]
  · cases a <;> simp_all [FlatEntry.Stores]

/-- An entry that stores an action outside the bounds is reported as out of range. -/
lemma decodeAction_eq_outOfRange {states position : Nat} {e : FlatEntry} {a : Action}
    (h : e.Stores f.reduceMulti a) (hnot : ¬ a.Within states f.ruleLhs.length) :
    ∃ what value, f.decodeAction states position e = .error (.outOfRange what value) := by
  unfold decodeAction
  cases a with
  | accept => exact absurd Action.within_accept hnot
  | shift n =>
    obtain ⟨hkind, rfl⟩ := h
    simp only [hkind]
    exact ⟨_, _, map_eq_error.2 (index_eq_error (by simpa using hnot))⟩
  | reduce k =>
    obtain ⟨hkind, rfl⟩ := h
    simp only [hkind]
    exact ⟨_, _, map_eq_error.2 (index_eq_error (by simpa using hnot))⟩
  | reduceMulti set =>
    obtain ⟨hkind, numbers, hlisted, rfl⟩ := h
    simp only [hkind]
    -- one of the listed words is no rule
    cases hread : numbers.mapM fun r => index "reduce rule" r f.ruleLhs.length with
    | ok rules =>
      refine absurd (Action.within_reduceMulti.2 fun k hk => ?_) hnot
      obtain ⟨r, hr, rfl⟩ := mem_ofList_toNat.1 hk
      exact (mapM_index_eq_ok_iff.1 hread).2 r hr
    | error err =>
      obtain ⟨r, -, hr⟩ := exists_of_mapM_eq_error hread
      obtain rfl := eq_outOfRange_of_index hr
      exact ⟨_, _, map_eq_error.2 (by rw [decodeMulti_of_listedAt hlisted, map_eq_error.2 hread])⟩
  | goto n =>
    obtain ⟨hkind, rfl⟩ := h
    simp only [hkind]
    exact ⟨_, _, map_eq_error.2 (index_eq_error (by simpa using hnot))⟩

/-! ### All entries -/

/-- The first entry is added to the cells read before, unless its cell is one of them. -/
lemma decodeEntries_cons (f : FlatTable) (states position : Nat) (e : FlatEntry) (es : List FlatEntry)
    (cells : Std.ExtTreeMap Cell Action) :
    f.decodeEntries states position (e :: es) cells = f.decodeAction states position e >>= fun a =>
      if e.cell ∈ cells then .error (.duplicateAction e.cell.state e.cell.symbol)
      else f.decodeEntries states (position + 1) es (cells.insert e.cell a) :=
  rfl

/-- No cell of a list is among given ones and a further one when none is among the given ones and the further
one is not in the list. -/
lemma forall_notMem_insert {cells : Std.ExtTreeMap Cell Action} {cell : Cell} {a : Action}
    {l : List (Cell × Action)} :
    (∀ p ∈ l, p.1 ∉ cells.insert cell a) ↔ cell ∉ l.map Prod.fst ∧ ∀ p ∈ l, p.1 ∉ cells := by
  simp only [Std.ExtTreeMap.mem_insert, Std.compare_eq_iff_eq, not_or, List.mem_map, not_exists, not_and]
  exact ⟨fun h => ⟨fun p hp heq => (h p hp).1 heq.symm, fun p hp => (h p hp).2⟩,
    fun h p hp => ⟨fun heq => h.1 p hp heq.symm, h.2 p hp⟩⟩

/-- The entries are read when they describe cells without repetition, whose actions are within bounds; the cells
are added to those read before, none of which comes again. -/
lemma decodeEntries_eq_ok_iff {states position : Nat} {es : List FlatEntry}
    {cells cells' : Std.ExtTreeMap Cell Action} :
    f.decodeEntries states position es cells = .ok cells' ↔
      ∃ l, List.Forall₂ (FlatEntry.Describes f.reduceMulti) es l ∧
        (∀ p ∈ l, p.2.Within states f.ruleLhs.length) ∧ (l.map Prod.fst).Nodup ∧ (∀ p ∈ l, p.1 ∉ cells) ∧
        cells' = cells.insertMany l := by
  induction es generalizing position cells with
  | nil => simp [decodeEntries, eq_comm]
  | cons e es ih =>
    rw [decodeEntries_cons, bind_eq_ok]
    constructor
    · rintro ⟨a, ha, h⟩
      obtain ⟨hstores, hwithin⟩ := decodeAction_eq_ok_iff.1 ha
      split at h
      · cases h
      · rename_i hfresh
        obtain ⟨l, hl, hall, hnodup, hnew, rfl⟩ := ih.1 h
        obtain ⟨hcell, hnew⟩ := forall_notMem_insert.1 hnew
        exact ⟨(e.cell, a) :: l, .cons ⟨rfl, hstores⟩ hl, List.forall_mem_cons.2 ⟨hwithin, hall⟩,
          List.nodup_cons.2 ⟨hcell, hnodup⟩, List.forall_mem_cons.2 ⟨hfresh, hnew⟩,
          Std.ExtTreeMap.insertMany_cons.symm⟩
    · rintro ⟨l, hl, hall, hnodup, hnew, rfl⟩
      obtain ⟨⟨_, a⟩, l, ⟨rfl, hstores⟩, htail, rfl⟩ := List.forall₂_cons_left_iff.1 hl
      obtain ⟨hwithin, hall⟩ := List.forall_mem_cons.1 hall
      obtain ⟨hfresh, hnew⟩ := List.forall_mem_cons.1 hnew
      obtain ⟨hcell, hnodup⟩ := List.nodup_cons.1 hnodup
      refine ⟨a, decodeAction_eq_ok_iff.2 ⟨hstores, hwithin⟩, ?_⟩
      rw [if_neg hfresh]
      exact ih.2 ⟨l, htail, hall, hnodup, forall_notMem_insert.2 ⟨hcell, hnew⟩,
        Std.ExtTreeMap.insertMany_cons⟩

/-- Entries that describe cells without repetition are reported as out of range when not all their actions are
within bounds. -/
lemma decodeEntries_eq_outOfRange {states position : Nat} {es : List FlatEntry} {l : List (Cell × Action)}
    {cells : Std.ExtTreeMap Cell Action} (h : List.Forall₂ (FlatEntry.Describes f.reduceMulti) es l)
    (hnodup : (l.map Prod.fst).Nodup) (hnew : ∀ p ∈ l, p.1 ∉ cells)
    (hnot : ¬ ∀ p ∈ l, p.2.Within states f.ruleLhs.length) :
    ∃ what value, f.decodeEntries states position es cells = .error (.outOfRange what value) := by
  induction h generalizing position cells with
  | nil => exact absurd (by simp) hnot
  | @cons e p es l hdescribes hl ih =>
    obtain ⟨hcell, hstores⟩ := hdescribes
    rw [decodeEntries_cons]
    by_cases hwithin : p.2.Within states f.ruleLhs.length
    · obtain ⟨hfresh, hnew⟩ := List.forall_mem_cons.1 hnew
      obtain ⟨hnotMem, hnodup⟩ := List.nodup_cons.1 hnodup
      have hrest : ¬ ∀ q ∈ l, q.2.Within states f.ruleLhs.length :=
        fun hall => hnot (List.forall_mem_cons.2 ⟨hwithin, hall⟩)
      obtain ⟨what, value, herror⟩ := ih hnodup (forall_notMem_insert.2 ⟨hnotMem, hnew⟩) hrest
      refine ⟨what, value, bind_eq_error.2 (Or.inr ⟨p.2, decodeAction_eq_ok_iff.2 ⟨hstores, hwithin⟩, ?_⟩)⟩
      rw [hcell, if_neg hfresh, herror]
    · obtain ⟨what, value, herror⟩ := decodeAction_eq_outOfRange hstores hwithin
      exact ⟨what, value, bind_eq_error.2 (Or.inl herror)⟩

/-! ### The rules -/

/-- A number is written as the word with this number. -/
lemma word_eq_ok_iff {n : Nat} {w : UInt32} : word n = .ok w ↔ w.toNat = n := by
  unfold word
  split
  · rename_i hlt
    rw [Except.ok.injEq]
    constructor
    · rintro rfl
      exact UInt32.toNat_ofNat_of_lt' hlt
    · rintro rfl
      exact UInt32.ofNat_toNat
  · rename_i hnot
    refine ⟨nofun, ?_⟩
    rintro rfl
    exact absurd w.toNat_lt_size hnot

/-- Where the first body ends is written first. -/
lemma encodeOffsets_cons_eq_ok_iff {start : Nat} {r : Rule} {rules : List Rule} {hi : UInt32}
    {offsets : List UInt32} :
    encodeOffsets start (r :: rules) = .ok (hi :: offsets) ↔
      hi.toNat = start + r.rhs.length ∧ encodeOffsets (start + r.rhs.length) rules = .ok offsets := by
  rw [encodeOffsets, bind_eq_ok]
  constructor
  · rintro ⟨next, hnext, h⟩
    obtain ⟨offsets', hoffsets, h⟩ := bind_eq_ok.1 h
    obtain ⟨rfl, rfl⟩ := List.cons.inj (Except.ok.inj h)
    exact ⟨word_eq_ok_iff.1 hnext, hoffsets⟩
  · rintro ⟨hhi, hoffsets⟩
    exact ⟨hi, word_eq_ok_iff.2 hhi, bind_eq_ok.2 ⟨offsets, hoffsets, rfl⟩⟩

/-- The bodies of rules, joined. -/
def bodies (rules : List Rule) : List Int32 :=
  rules.flatMap fun r => r.rhs.map Symbol.id

/-- The bodies of the first rule and of the others. -/
@[simp] lemma bodies_cons (r : Rule) (rules : List Rule) :
    bodies (r :: rules) = r.rhs.map Symbol.id ++ bodies rules :=
  rfl

/-- A body read from numbers has these numbers. -/
@[simp] lemma map_id_map_mk (l : List Int32) : (l.map Symbol.mk).map Symbol.id = l := by
  simp [Function.comp_def]

/-- The rules with the numbers from `n` on. -/
def numberFrom : Nat → List Rule → List Rule
  | _, [] => []
  | n, r :: rules => { r with index := n } :: numberFrom (n + 1) rules

/-- Reading the first rule cuts its body out of the joined bodies, between two offsets. -/
lemma decodeRules_cons_eq_ok_iff {rhs lhss : List Int32} {n start stop : Nat} {lhs : Int32}
    {lo hi : UInt32} {offsets : List UInt32} {rules : List Rule} :
    decodeRules rhs n start (lhs :: lhss) (lo :: hi :: offsets) = .ok (rules, stop) ↔
      lo.toNat = start ∧ start ≤ hi.toNat ∧ hi.toNat ≤ rhs.length ∧
        ∃ rules', decodeRules rhs (n + 1) hi.toNat lhss (hi :: offsets) = .ok (rules', stop) ∧
          rules = ⟨n, ⟨lhs⟩, ((rhs.drop start).take (hi.toNat - start)).map Symbol.mk⟩ :: rules' := by
  rw [decodeRules]
  split
  · rename_i hbad
    refine ⟨nofun, ?_⟩
    rintro ⟨rfl, hle, hlength, -⟩
    omega
  · rename_i hgood
    obtain ⟨rfl, hle, hlength⟩ : lo.toNat = start ∧ lo.toNat ≤ hi.toNat ∧ hi.toNat ≤ rhs.length := by
      simpa [not_or] using hgood
    rw [bind_eq_ok]
    constructor
    · rintro ⟨⟨rules', stop'⟩, hrules, h⟩
      obtain ⟨rfl, rfl⟩ := Prod.mk.inj (Except.ok.inj h)
      exact ⟨rfl, hle, hlength, rules', hrules, rfl⟩
    · rintro ⟨-, -, -, rules', hrules, rfl⟩
      exact ⟨(rules', stop), hrules, rfl⟩

/-- The rules that are read have the given left-hand sides, numbers in order, and bodies that lie between the
offsets and cover the joined bodies up to where the last one ends. -/
lemma decodeRules_eq_ok_iff {rhs lhss : List Int32} {n start stop : Nat} {lo : UInt32}
    {offsets : List UInt32} {rules : List Rule} (hlength : offsets.length = lhss.length)
    (hstart : start ≤ rhs.length) :
    decodeRules rhs n start lhss (lo :: offsets) = .ok (rules, stop) ↔
      rules.map (fun r => r.lhs.id) = lhss ∧ numberFrom n rules = rules ∧
        encodeOffsets start rules = .ok offsets ∧ rhs.drop start = bodies rules ++ rhs.drop stop ∧
        stop = start + (bodies rules).length ∧ (rules ≠ [] → lo.toNat = start) := by
  induction lhss generalizing n start lo offsets rules with
  | nil =>
    obtain rfl := List.length_eq_zero_iff.1 hlength
    simp only [decodeRules, Except.ok.injEq, Prod.mk.injEq, List.map_eq_nil_iff]
    constructor
    · rintro ⟨rfl, rfl⟩
      simp [numberFrom, encodeOffsets, bodies]
    · rintro ⟨rfl, -, -, -, rfl, -⟩
      simp
  | cons lhs lhss ih =>
    obtain ⟨hi, offsets, rfl⟩ := List.exists_cons_of_length_eq_add_one hlength
    rw [decodeRules_cons_eq_ok_iff]
    have hlength' : offsets.length = lhss.length := by simpa using hlength
    constructor
    · -- what lies between the first two offsets is the first body, and the others cover what comes after it
      rintro ⟨hlo, hle, hhi, rules, hrules, rfl⟩
      obtain ⟨hlhss, hnumbers, hoffsets, hdrop, rfl, -⟩ := (ih hlength' hhi).1 hrules
      have hbody : ((rhs.drop start).take (hi.toNat - start)).length = hi.toNat - start := by
        rw [List.length_take, List.length_drop]
        omega
      have hend : start + (hi.toNat - start) = hi.toNat := by omega
      refine ⟨by simp [hlhss], by rw [numberFrom, hnumbers], ?_, ?_, ?_, fun _ => hlo⟩
      · rw [encodeOffsets_cons_eq_ok_iff, List.length_map, hbody, hend]
        exact ⟨rfl, hoffsets⟩
      · rw [bodies_cons, map_id_map_mk, List.append_assoc, ← hdrop]
        conv_lhs => rw [← List.take_append_drop (hi.toNat - start) (rhs.drop start), List.drop_drop, hend]
      · rw [bodies_cons, map_id_map_mk, List.length_append, hbody]
        omega
    · -- the joined bodies begin with the first one, which is as long as the first two offsets say
      rintro ⟨hlhss, hnumbers, hoffsets, hdrop, rfl, hlo⟩
      obtain ⟨r, rules, rfl⟩ : ∃ r rules', rules = r :: rules' := by
        cases rules with
        | nil => cases hlhss
        | cons r rules => exact ⟨r, rules, rfl⟩
      obtain ⟨rfl, htail⟩ := List.cons.inj hlhss
      obtain ⟨hr, hnumbers⟩ := List.cons.inj hnumbers
      obtain ⟨hhi, hoffsets⟩ := encodeOffsets_cons_eq_ok_iff.1 hoffsets
      rw [bodies_cons, List.append_assoc] at hdrop
      have hroom : r.rhs.length ≤ rhs.length - start := by
        have := congrArg List.length hdrop
        simp only [List.length_drop, List.length_append, List.length_map] at this
        omega
      have htake : (rhs.drop start).take (hi.toNat - start) = r.rhs.map Symbol.id := by
        rw [hdrop, hhi, Nat.add_sub_cancel_left, List.take_left' (by simp)]
      refine ⟨hlo (by simp), by omega, by omega, rules, ?_, ?_⟩
      · refine (ih hlength' (by omega)).2 ⟨htail, hnumbers, hhi ▸ hoffsets, ?_, ?_, fun _ => rfl⟩
        · rw [hhi, ← List.drop_drop, hdrop, List.drop_left' (by simp), bodies_cons]
        · rw [bodies_cons, List.length_append, List.length_map, hhi, Nat.add_assoc]
      · rw [htake, ← hr]
        simp [Function.comp_def]

/-! ### The whole table -/

/-- Reading a table as a chain of checks. -/
lemma toTable_eq (f : FlatTable) :
    f.toTable =
      if f.ruleRhsOffsets.length ≠ f.ruleLhs.length + 1 then .error (.lengthMismatch "rule_rhs_offsets")
      else decodeRules f.ruleRhs 0 0 f.ruleLhs f.ruleRhsOffsets >>= fun r =>
        if r.2 ≠ f.ruleRhs.length then .error (.lengthMismatch "rule_rhs")
        else if f.actionSymbols.length ≠ f.actionStates.length then .error (.lengthMismatch "action_symbols")
        else if f.actionKinds.length ≠ f.actionStates.length then .error (.lengthMismatch "action_kinds")
        else if f.actionValues.length ≠ f.actionStates.length then .error (.lengthMismatch "action_values")
        else f.decodeEntries f.stateCount 0 f.entries ∅ >>= fun cells =>
          .ok { start := f.startState.toNat, cells, rules := r.1.toArray } :=
  rfl

/-- The lengths of the arrays fit together, and the offsets cut the joined bodies into the rules. -/
structure Framed (f : FlatTable) (rules : List Rule) : Prop where
  offsets : f.ruleRhsOffsets.length = f.ruleLhs.length + 1
  rules : decodeRules f.ruleRhs 0 0 f.ruleLhs f.ruleRhsOffsets = .ok (rules, f.ruleRhs.length)
  symbols : f.actionSymbols.length = f.actionStates.length
  kinds : f.actionKinds.length = f.actionStates.length
  values : f.actionValues.length = f.actionStates.length

/-- Where the arrays fit together, reading is reading the entries. -/
lemma Framed.toTable_eq {rules : List Rule} (h : f.Framed rules) :
    f.toTable = f.decodeEntries f.stateCount 0 f.entries ∅ >>= fun cells =>
      .ok { start := f.startState.toNat, cells, rules := rules.toArray } := by
  rw [FlatTable.toTable_eq, if_neg (not_not.2 h.offsets), h.rules]
  change (if _ then _ else _) = _
  rw [if_neg (not_not.2 rfl), if_neg (not_not.2 h.symbols), if_neg (not_not.2 h.kinds),
    if_neg (not_not.2 h.values)]

/-- A table is read where the arrays fit together and the entries are read. -/
lemma toTable_eq_ok_iff {t : Table} :
    f.toTable = .ok t ↔ f.Framed t.rules.toList ∧ f.startState.toNat = t.start ∧
      f.decodeEntries f.stateCount 0 f.entries ∅ = .ok t.cells := by
  constructor
  · intro h
    rw [toTable_eq] at h
    split at h
    · cases h
    · rename_i hoffsets
      obtain ⟨⟨rules, stop⟩, hrules, h⟩ := bind_eq_ok.1 h
      split_ifs at h with hstop hsymbols hkinds hvalues
      obtain ⟨cells, hcells, h⟩ := bind_eq_ok.1 h
      obtain rfl := Except.ok.inj h
      obtain rfl : stop = f.ruleRhs.length := not_not.1 hstop
      exact ⟨⟨not_not.1 hoffsets, hrules, not_not.1 hsymbols, not_not.1 hkinds, not_not.1 hvalues⟩, rfl, hcells⟩
  · rintro ⟨hframed, hstart, hcells⟩
    rw [hframed.toTable_eq, bind_eq_ok]
    exact ⟨t.cells, hcells, by rw [hstart]⟩

end FlatTable

end Lalr
