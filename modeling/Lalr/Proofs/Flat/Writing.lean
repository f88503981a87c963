import Lalr.Proofs.Flat.Reading
import Mathlib.Data.List.Sort

/-!
# Writing flat tables

Writing a table goes through its cells in ascending order.  Each cell becomes an entry that stores its action,
and the lists of competing rules stand one after the other, in the order of the entries that point to them
(`FlatTable.Arranged`).  What the entries store and how the lists are arranged determine what is written
(`FlatTable.encodeCells_eq_ok_iff`), and with the rules next to them, the flat form (`Table.toFlat_eq_ok_iff`).

Words have 32 bits.  A table whose numbers and arrays are small enough has a flat form
(`Table.Encodable.exists_toFlat`).
-/

namespace Lalr

/-! ### One entry -/

/-- A set given by words in strictly ascending order lists their numbers. -/
lemma toList_ofList_toNat {numbers : List UInt32} (h : numbers.Pairwise (· < ·)) :
    (.ofList (numbers.map UInt32.toNat) : RuleSet).toList = numbers.map UInt32.toNat := by
  have hset : (.ofList (numbers.map UInt32.toNat) : RuleSet).toList.Pairwise (· < ·) :=
    Std.ExtTreeSet.ordered_toList.imp Std.compare_eq_lt.1
  have hnumbers : (numbers.map UInt32.toNat).Pairwise (· < ·) :=
    List.pairwise_map.2 (h.imp UInt32.lt_iff_toNat_lt.1)
  refine hset.eq_of_mem_iff hnumbers fun {k} => ?_
  rw [Std.ExtTreeSet.mem_toList, Std.ExtTreeSet.mem_ofList, List.contains_iff_mem]

/-- Words in the order of a set are strictly ascending and give the set. -/
lemma eq_ofList_of_map_eq_toList {numbers : List UInt32} {rules : RuleSet}
    (h : numbers.map UInt32.toNat = rules.toList) :
    numbers.Pairwise (· < ·) ∧ rules = .ofList (numbers.map UInt32.toNat) := by
  constructor
  · have hset : rules.toList.Pairwise (· < ·) := Std.ExtTreeSet.ordered_toList.imp Std.compare_eq_lt.1
    rw [← h, List.pairwise_map] at hset
    exact hset.imp UInt32.lt_iff_toNat_lt.2
  · refine Std.ExtTreeSet.ext_mem fun k => ?_
    rw [h, Std.ExtTreeSet.mem_ofList, List.contains_iff_mem, Std.ExtTreeSet.mem_toList]

/-- The part of the lists of competing rules that belongs to an entry, where they have the length `offset`
before it.  An entry with competing reductions points to its own list, which is strictly ascending; no other
entry has a part. -/
def FlatEntry.Owns (offset : Nat) (e : FlatEntry) (part : List UInt32) : Prop :=
  if e.kind = FlatTable.reduceMultiKind then
    e.value.toNat = offset ∧
      ∃ count numbers, part = count :: numbers ∧ count.toNat = numbers.length ∧ numbers.Pairwise (· < ·)
  else part = []

/-- The part of an entry with competing reductions. -/
lemma FlatEntry.owns_iff {offset : Nat} {e : FlatEntry} {part : List UInt32}
    (h : e.kind = FlatTable.reduceMultiKind) :
    e.Owns offset part ↔ e.value.toNat = offset ∧
      ∃ count numbers, part = count :: numbers ∧ count.toNat = numbers.length ∧ numbers.Pairwise (· < ·) := by
  rw [Owns, if_pos h]

namespace FlatTable

/-- Numbers are written as the words with these numbers. -/
lemma mapM_word_eq_ok_iff {rules : List Nat} {numbers : List UInt32} :
    rules.mapM word = .ok numbers ↔ numbers.map UInt32.toNat = rules := by
  have hword : ∀ n w, word n = .ok w ↔ n = w.toNat := fun n w => word_eq_ok_iff.trans eq_comm
  rw [mapM_eq_ok, @eq_comm _ _ rules, ← List.forall₂_eq_eq_eq, List.forall₂_map_right_iff]
  simp only [hword]

/-- A number is written as the value of an entry, without adding to the lists of competing rules. -/
lemma word_bind_eq_ok_iff {n : Nat} {kind kind' : UInt8} {value : UInt32} {part : List UInt32} :
    (word n >>= fun w => .ok (kind, w, [])) = .ok (kind', value, part) ↔
      kind' = kind ∧ value.toNat = n ∧ part = [] := by
  rw [bind_eq_ok]
  constructor
  · rintro ⟨w, hw, h⟩
    obtain ⟨rfl, rfl, rfl⟩ : kind = kind' ∧ w = value ∧ [] = part := by simpa using h
    exact ⟨rfl, word_eq_ok_iff.1 hw, rfl⟩
  · rintro ⟨rfl, hvalue, rfl⟩
    exact ⟨value, word_eq_ok_iff.2 hvalue, rfl⟩

/-- Competing rules are written where the lists end so far. -/
lemma encodeAction_reduceMulti_eq_ok_iff {offset : Nat} {rules : RuleSet} {kind : UInt8} {value : UInt32}
    {part : List UInt32} :
    encodeAction offset (.reduceMulti rules) = .ok (kind, value, part) ↔
      kind = reduceMultiKind ∧ value.toNat = offset ∧ ∃ count numbers, part = count :: numbers ∧
        count.toNat = numbers.length ∧ numbers.map UInt32.toNat = rules.toList := by
  have hsize : ∀ {numbers : List UInt32}, numbers.map UInt32.toNat = rules.toList →
      numbers.length = rules.size := fun h => by
    rw [← Std.ExtTreeSet.length_toList, ← h, List.length_map]
  rw [encodeAction, bind_eq_ok]
  constructor
  · rintro ⟨offset', hoffset, h⟩
    obtain ⟨count, hcount, h⟩ := bind_eq_ok.1 h
    obtain ⟨numbers, hnumbers, h⟩ := bind_eq_ok.1 h
    obtain ⟨rfl, rfl, rfl⟩ : reduceMultiKind = kind ∧ offset' = value ∧ count :: numbers = part := by
      simpa using h
    have hlist := mapM_word_eq_ok_iff.1 hnumbers
    exact ⟨rfl, word_eq_ok_iff.1 hoffset, count, numbers, rfl,
      (word_eq_ok_iff.1 hcount).trans (hsize hlist).symm, hlist⟩
  · rintro ⟨rfl, hoffset, count, numbers, rfl, hcount, hlist⟩
    exact ⟨value, word_eq_ok_iff.2 hoffset, bind_eq_ok.2 ⟨count,
      word_eq_ok_iff.2 (hcount.trans (hsize hlist)), bind_eq_ok.2 ⟨numbers, mapM_word_eq_ok_iff.2 hlist, rfl⟩⟩⟩

/-- Writing an action gives an entry that stores it, with its own part of the lists of competing rules. -/
lemma encodeAction_eq_ok_iff {pool part after : List UInt32} {offset : Nat} {a : Action} {e : FlatEntry}
    (hpool : pool.drop offset = part ++ after) :
    encodeAction offset a = .ok (e.kind, e.value, part) ↔
      e.Stores pool a ∧ (e.kind = acceptKind → e.value = 0) ∧ e.Owns offset part := by
  cases a with
  | accept => grind [encodeAction, FlatEntry.Stores, FlatEntry.Owns, acceptKind, reduceMultiKind]
  | shift n =>
    rw [encodeAction, word_bind_eq_ok_iff]
    grind [FlatEntry.Stores, FlatEntry.Owns, acceptKind, shiftKind, reduceMultiKind]
  | reduce k =>
    rw [encodeAction, word_bind_eq_ok_iff]
    grind [FlatEntry.Stores, FlatEntry.Owns, acceptKind, reduceKind, reduceMultiKind]
  | goto n =>
    rw [encodeAction, word_bind_eq_ok_iff]
    grind [FlatEntry.Stores, FlatEntry.Owns, acceptKind, gotoKind, reduceMultiKind]
  | reduceMulti rules =>
    rw [encodeAction_reduceMulti_eq_ok_iff]
    constructor
    · rintro ⟨hkind, hvalue, count, numbers, rfl, hcount, hlist⟩
      obtain ⟨hascending, hset⟩ := eq_ofList_of_map_eq_toList hlist
      refine ⟨⟨hkind, numbers, ⟨count, after, ?_, hcount⟩, hset⟩, by simp [hkind], ?_⟩
      · rw [hvalue, hpool, List.cons_append]
      · exact (FlatEntry.owns_iff hkind).2 ⟨hvalue, count, numbers, rfl, hcount, hascending⟩
    · rintro ⟨⟨hkind, numbers', hlisted, rfl⟩, -, howns⟩
      obtain ⟨hvalue, count, numbers, rfl, hcount, hascending⟩ := (FlatEntry.owns_iff hkind).1 howns
      -- the list that the entry points to is its own
      have hown : ListedAt pool e.value.toNat numbers :=
        ⟨count, after, by rw [hvalue, hpool, List.cons_append], hcount⟩
      obtain rfl : numbers' = numbers := hlisted.unique hown
      exact ⟨hkind, hvalue, count, numbers', rfl, hcount, (toList_ofList_toNat hascending).symm⟩

/-! ### All entries -/

/-- From the offset on, the lists of competing rules are those of the entries, one after the other. -/
inductive Arranged : Nat → List FlatEntry → List UInt32 → Prop
  | nil (offset : Nat) : Arranged offset [] []
  | cons {offset : Nat} {e : FlatEntry} {es : List FlatEntry} {part pool : List UInt32}
      (hpart : e.Owns offset part) (hrest : Arranged (offset + part.length) es pool) :
      Arranged offset (e :: es) (part ++ pool)

/-- The first cell is written first, and the others after its part of the lists of competing rules. -/
lemma encodeCells_cons_eq_ok_iff {offset : Nat} {p : Cell × Action} {l : List (Cell × Action)}
    {es : List FlatEntry} {pool : List UInt32} :
    encodeCells offset (p :: l) = .ok (es, pool) ↔ ∃ e es' part pool', es = e :: es' ∧ pool = part ++ pool' ∧
      e.cell = p.1 ∧ encodeAction offset p.2 = .ok (e.kind, e.value, part) ∧
      encodeCells (offset + part.length) l = .ok (es', pool') := by
  rw [encodeCells, bind_eq_ok]
  constructor
  · rintro ⟨⟨kind, value, part⟩, haction, h⟩
    obtain ⟨state, hstate, h⟩ := bind_eq_ok.1 h
    obtain ⟨⟨es', pool'⟩, hrest, h⟩ := bind_eq_ok.1 h
    obtain ⟨rfl, rfl⟩ := Prod.mk.inj (Except.ok.inj h)
    have hcell : (⟨state.toNat, p.1.symbol⟩ : Cell) = p.1 := by rw [word_eq_ok_iff.1 hstate]
    exact ⟨_, es', part, pool', rfl, rfl, hcell, haction, hrest⟩
  · rintro ⟨e, es', part, pool', rfl, rfl, hcell, haction, hrest⟩
    refine ⟨_, haction, bind_eq_ok.2 ⟨e.state, word_eq_ok_iff.2 ?_, bind_eq_ok.2 ⟨_, hrest, ?_⟩⟩⟩
    · rw [← hcell]
      rfl
    · rw [← hcell]
      rfl

/-- Cells are written as entries that describe them, with zero as the value of accepting, and with the lists of
competing rules one after the other. -/
lemma encodeCells_eq_ok_iff {whole pool after : List UInt32} {offset : Nat} {l : List (Cell × Action)}
    {es : List FlatEntry} (hwhole : whole.drop offset = pool ++ after) :
    encodeCells offset l = .ok (es, pool) ↔ List.Forall₂ (FlatEntry.Describes whole) es l ∧
      (∀ e ∈ es, e.kind = acceptKind → e.value = 0) ∧ Arranged offset es pool := by
  induction l generalizing offset es pool with
  | nil =>
    rw [List.forall₂_nil_right_iff, encodeCells, Except.ok.injEq, Prod.mk.injEq]
    constructor
    · rintro ⟨rfl, rfl⟩
      exact ⟨rfl, by simp, .nil offset⟩
    · rintro ⟨rfl, -, ⟨⟩⟩
      exact ⟨rfl, rfl⟩
  | cons p l ih =>
    -- the lists of the other entries come after the part of the first one
    have hrest : ∀ {part pool'}, pool = part ++ pool' →
        whole.drop offset = part ++ (pool' ++ after) ∧ whole.drop (offset + part.length) = pool' ++ after := by
      rintro part pool' rfl
      rw [List.append_assoc] at hwhole
      exact ⟨hwhole, by rw [← List.drop_drop, hwhole, List.drop_left]⟩
    rw [encodeCells_cons_eq_ok_iff]
    constructor
    · rintro ⟨e, es, part, pool', rfl, hpool, hcell, haction, htail⟩
      obtain ⟨hhead, hafter⟩ := hrest hpool
      obtain ⟨hstores, hzero, howns⟩ := (encodeAction_eq_ok_iff hhead).1 haction
      obtain ⟨hall, hzeros, harranged⟩ := (ih hafter).1 htail
      exact ⟨.cons ⟨hcell, hstores⟩ hall, List.forall_mem_cons.2 ⟨hzero, hzeros⟩,
        hpool ▸ .cons howns harranged⟩
    · rintro ⟨hall, hzeros, harranged⟩
      obtain ⟨e, es, ⟨hcell, hstores⟩, htail, rfl⟩ := List.forall₂_cons_right_iff.1 hall
      obtain ⟨hzero, hzeros⟩ := List.forall_mem_cons.1 hzeros
      obtain ⟨⟩ | @⟨_, _, _, part, pool', howns, harranged⟩ := harranged
      obtain ⟨hhead, hafter⟩ := hrest rfl
      exact ⟨e, es, part, pool', rfl, rfl, hcell, (encodeAction_eq_ok_iff hhead).2 ⟨hstores, hzero, howns⟩,
        (ih hafter).2 ⟨htail, hzeros, harranged⟩⟩

/-! ### Rules -/

/-- Numbering the rules changes nothing about where their bodies end. -/
@[simp] lemma encodeOffsets_numberFrom (start n : Nat) (rules : List Rule) :
    encodeOffsets start (numberFrom n rules) = encodeOffsets start rules := by
  induction rules generalizing start n with
  | nil => rfl
  | cons r rules ih => rw [numberFrom, encodeOffsets, encodeOffsets, ih]

/-- Numbering the rules keeps their bodies. -/
@[simp] lemma bodies_numberFrom (n : Nat) (rules : List Rule) : bodies (numberFrom n rules) = bodies rules := by
  induction rules generalizing n with
  | nil => rfl
  | cons r rules ih => rw [numberFrom, bodies_cons, bodies_cons, ih]

/-- Numbering the rules keeps their left-hand sides. -/
@[simp] lemma map_lhs_numberFrom (n : Nat) (rules : List Rule) :
    (numberFrom n rules).map (fun r => r.lhs.id) = rules.map fun r => r.lhs.id := by
  induction rules generalizing n with
  | nil => rfl
  | cons r rules ih => rw [numberFrom, List.map_cons, List.map_cons, ih]

/-- Numbered rules keep their numbers. -/
@[simp] lemma numberFrom_numberFrom (n : Nat) (rules : List Rule) :
    numberFrom n (numberFrom n rules) = numberFrom n rules := by
  induction rules generalizing n with
  | nil => rfl
  | cons r rules ih => rw [numberFrom, numberFrom, ih]

/-- Numbering the rules keeps how many they are. -/
@[simp] lemma length_numberFrom (n : Nat) (rules : List Rule) : (numberFrom n rules).length = rules.length := by
  induction rules generalizing n with
  | nil => rfl
  | cons r rules ih => rw [numberFrom, List.length_cons, List.length_cons, ih]

/-- Each rule has its end. -/
lemma length_of_encodeOffsets {start : Nat} {rules : List Rule} {offsets : List UInt32}
    (h : encodeOffsets start rules = .ok offsets) : offsets.length = rules.length := by
  induction rules generalizing start offsets with
  | nil =>
    obtain rfl := Except.ok.inj h
    rfl
  | cons r rules ih =>
    obtain ⟨next, -, h⟩ := bind_eq_ok.1 h
    obtain ⟨offsets', hoffsets, h⟩ := bind_eq_ok.1 h
    rw [← Except.ok.inj h, List.length_cons, List.length_cons, ih hoffsets]

variable {f : FlatTable}

/-- The arrays fit together and cut the joined bodies into numbered rules when the four arrays of the entries
have the same length, and the other ones hold the left-hand sides, the ends of the bodies and the bodies. -/
lemma framed_iff {lo : UInt32} {offsets : List UInt32} {rules : List Rule}
    (h : f.ruleRhsOffsets = lo :: offsets) :
    f.Framed rules ↔ f.actionSymbols.length = f.actionStates.length ∧
      f.actionKinds.length = f.actionStates.length ∧ f.actionValues.length = f.actionStates.length ∧
      numberFrom 0 rules = rules ∧ rules.map (fun r => r.lhs.id) = f.ruleLhs ∧
      encodeOffsets 0 rules = .ok offsets ∧ f.ruleRhs = bodies rules ∧ (rules ≠ [] → lo = 0) := by
  have hzero : lo = 0 ↔ lo.toNat = 0 := UInt32.toNat_inj.symm
  constructor
  · rintro ⟨hlength, hrules, hsymbols, hkinds, hvalues⟩
    rw [h, List.length_cons, Nat.add_right_cancel_iff] at hlength
    rw [h, decodeRules_eq_ok_iff hlength (Nat.zero_le _)] at hrules
    obtain ⟨hlhs, hnumbers, hoffsets, hdrop, -, hlo⟩ := hrules
    rw [List.drop_zero, List.drop_length, List.append_nil] at hdrop
    exact ⟨hsymbols, hkinds, hvalues, hnumbers, hlhs, hoffsets, hdrop, fun hne => hzero.2 (hlo hne)⟩
  · rintro ⟨hsymbols, hkinds, hvalues, hnumbers, hlhs, hoffsets, hbodies, hlo⟩
    have hlength : offsets.length = f.ruleLhs.length := by
      rw [length_of_encodeOffsets hoffsets, ← hlhs, List.length_map]
    refine ⟨by rw [h, List.length_cons, hlength], ?_, hsymbols, hkinds, hvalues⟩
    rw [h, decodeRules_eq_ok_iff hlength (Nat.zero_le _)]
    refine ⟨hlhs, hnumbers, hoffsets, ?_, ?_, fun hne => hzero.1 (hlo hne)⟩
    · rw [List.drop_zero, List.drop_length, List.append_nil, hbodies]
    · rw [Nat.zero_add, hbodies]

/-- The rules that the joined bodies are cut into are numbered by position. -/
lemma Framed.numberFrom_eq {rules : List Rule} (h : f.Framed rules) : numberFrom 0 rules = rules := by
  obtain ⟨lo, offsets, hoffsets⟩ := List.exists_cons_of_length_eq_add_one h.offsets
  exact ((framed_iff hoffsets).1 h).2.2.2.1

/-- There are as many left-hand sides as rules. -/
lemma Framed.length_ruleLhs {rules : List Rule} (h : f.Framed rules) : f.ruleLhs.length = rules.length := by
  obtain ⟨lo, offsets, hoffsets⟩ := List.exists_cons_of_length_eq_add_one h.offsets
  obtain ⟨-, -, -, -, hlhs, -⟩ := (framed_iff hoffsets).1 h
  rw [← hlhs, List.length_map]

/-! ### The whole table -/

/-- Arrays that hold the parts of entries give these entries. -/
lemma zip_map_entries (es : List FlatEntry) :
    ((es.map FlatEntry.state).zip ((es.map FlatEntry.symbol).zip
      ((es.map FlatEntry.kind).zip (es.map FlatEntry.value)))).map
        (fun (state, symbol, kind, value) => FlatEntry.mk state symbol kind value) = es := by
  simp [List.zip_map', Function.comp_def]

/-- Where the four arrays have the same length, they hold the parts of the entries. -/
lemma map_entries (hsymbols : f.actionSymbols.length = f.actionStates.length)
    (hkinds : f.actionKinds.length = f.actionStates.length)
    (hvalues : f.actionValues.length = f.actionStates.length) :
    f.entries.map FlatEntry.state = f.actionStates ∧ f.entries.map FlatEntry.symbol = f.actionSymbols ∧
      f.entries.map FlatEntry.kind = f.actionKinds ∧ f.entries.map FlatEntry.value = f.actionValues := by
  have hrest : (f.actionSymbols.zip (f.actionKinds.zip f.actionValues)).length = f.actionStates.length := by
    simp [hsymbols, hkinds, hvalues]
  have htail : (f.actionKinds.zip f.actionValues).length = f.actionSymbols.length := by
    simp [hsymbols, hkinds, hvalues]
  have hstates := List.map_fst_zip hrest.ge
  have hrests := List.map_snd_zip hrest.le
  have htails := List.map_snd_zip htail.le
  refine ⟨?_, ?_, ?_, ?_⟩
  · rw [← hstates, entries, List.map_map]
    rfl
  · rw [← List.map_fst_zip htail.ge, ← hrests, entries, List.map_map, List.map_map]
    rfl
  · rw [← List.map_fst_zip (hkinds.trans hvalues.symm).le, ← htails, ← hrests, entries, List.map_map,
      List.map_map, List.map_map]
    rfl
  · rw [← List.map_snd_zip (hvalues.trans hkinds.symm).le, ← htails, ← hrests, entries, List.map_map,
      List.map_map, List.map_map]
    rfl

end FlatTable

/-- A flat form of a table: the arrays fit together and hold the rules as they are numbered by position, the
first offset is zero, and the entries describe the cells in order, with the lists of competing rules one after
the other. -/
lemma Table.toFlat_eq_ok_iff {t : Table} {f : FlatTable} :
    t.toFlat = .ok f ↔ f.startState.toNat = t.start ∧ f.Framed (FlatTable.numberFrom 0 t.rules.toList) ∧
      f.ruleRhsOffsets.head? = some 0 ∧
      List.Forall₂ (FlatEntry.Describes f.reduceMulti) f.entries t.cells.toList ∧
      (∀ e ∈ f.entries, e.kind = FlatTable.acceptKind → e.value = 0) ∧
      FlatTable.Arranged 0 f.entries f.reduceMulti := by
  have hwhole : f.reduceMulti.drop 0 = f.reduceMulti ++ [] := (List.append_nil _).symm
  rw [← FlatTable.encodeCells_eq_ok_iff hwhole, toFlat, bind_eq_ok]
  constructor
  · rintro ⟨start, hstart, h⟩
    obtain ⟨⟨es, pool⟩, hcells, h⟩ := bind_eq_ok.1 h
    obtain ⟨offsets, hoffsets, h⟩ := bind_eq_ok.1 h
    obtain rfl := Except.ok.inj h
    refine ⟨FlatTable.word_eq_ok_iff.1 hstart, (FlatTable.framed_iff rfl).2 ?_, rfl, ?_⟩
    · refine ⟨by simp, by simp, by simp, by simp, by simp, by simpa using hoffsets, ?_, fun _ => rfl⟩
      rw [FlatTable.bodies_numberFrom, FlatTable.bodies]
    · rw [hcells, FlatTable.entries, FlatTable.zip_map_entries]
  · rintro ⟨hstart, hframed, hfirst, hcells⟩
    obtain ⟨offsets, hoffsets⟩ := List.head?_eq_some_iff.1 hfirst
    obtain ⟨hsymbols, hkinds, hvalues, -, hlhs, hends, hbodies, -⟩ := (FlatTable.framed_iff hoffsets).1 hframed
    obtain ⟨hs, hx, hk, hv⟩ := FlatTable.map_entries hsymbols hkinds hvalues
    rw [FlatTable.map_lhs_numberFrom] at hlhs
    rw [FlatTable.encodeOffsets_numberFrom] at hends
    rw [FlatTable.bodies_numberFrom] at hbodies
    refine ⟨f.startState, FlatTable.word_eq_ok_iff.2 hstart, bind_eq_ok.2 ⟨_, hcells, ?_⟩⟩
    refine bind_eq_ok.2 ⟨_, hends, ?_⟩
    simp only [hs, hx, hk, hv, hlhs, ← hoffsets]
    rw [← FlatTable.bodies, ← hbodies]

/-! ### Tables that fit into words -/

/-- What an action adds to the lists of competing rules. -/
def Action.listing : Action → List Nat
  | reduceMulti rules => rules.size :: rules.toList
  | _ => []

/-- The numbers of the states and rules of a table, and the lengths of the arrays that they are written to, are
numbers of 32 bits. -/
@[mk_iff] structure Table.Encodable (t : Table) : Prop where
  start : t.start < UInt32.size
  states : ∀ p ∈ t.cells.toList, p.1.state < UInt32.size
  actions : ∀ p ∈ t.cells.toList, p.2.Within UInt32.size UInt32.size
  lists : (t.cells.toList.flatMap fun p => p.2.listing).length < UInt32.size
  bodies : (FlatTable.bodies t.rules.toList).length < UInt32.size

instance {t : Table} : Decidable t.Encodable := decidable_of_iff _ (Table.encodable_iff t).symm

namespace FlatTable

/-- A number of 32 bits is written as a word. -/
lemma exists_word_eq_ok {n : Nat} (h : n < UInt32.size) : ∃ w, word n = .ok w :=
  ⟨_, if_pos h⟩

/-- An action with numbers of 32 bits is written where its part of the lists of competing rules ends early
enough. -/
lemma exists_encodeAction_eq_ok (offset : Nat) {a : Action} (hwithin : a.Within UInt32.size UInt32.size)
    (hlength : offset + a.listing.length < UInt32.size) :
    ∃ kind value part, encodeAction offset a = .ok (kind, value, part) ∧ part.map UInt32.toNat = a.listing := by
  cases a with
  | accept => exact ⟨acceptKind, 0, [], rfl, rfl⟩
  | shift n =>
    obtain ⟨w, hw⟩ := exists_word_eq_ok (Action.within_shift.1 hwithin)
    exact ⟨shiftKind, w, [], bind_eq_ok.2 ⟨w, hw, rfl⟩, rfl⟩
  | reduce k =>
    obtain ⟨w, hw⟩ := exists_word_eq_ok (Action.within_reduce.1 hwithin)
    exact ⟨reduceKind, w, [], bind_eq_ok.2 ⟨w, hw, rfl⟩, rfl⟩
  | reduceMulti rules =>
    rw [Action.listing, List.length_cons, Std.ExtTreeSet.length_toList] at hlength
    obtain ⟨w, hw⟩ := exists_word_eq_ok (n := offset) (by omega)
    obtain ⟨count, hcount⟩ := exists_word_eq_ok (n := rules.size) (by omega)
    have hwords : ∀ k ∈ rules.toList, ∃ w, word k = .ok w := fun k hk =>
      exists_word_eq_ok (Action.within_reduceMulti.1 hwithin k (Std.ExtTreeSet.mem_toList.1 hk))
    obtain ⟨numbers, hnumbers⟩ := exists_mapM_eq_ok hwords
    refine ⟨reduceMultiKind, w, count :: numbers, ?_, ?_⟩
    · exact bind_eq_ok.2 ⟨w, hw, bind_eq_ok.2 ⟨count, hcount, bind_eq_ok.2 ⟨numbers, hnumbers, rfl⟩⟩⟩
    · rw [List.map_cons, word_eq_ok_iff.1 hcount, mapM_word_eq_ok_iff.1 hnumbers, Action.listing]
  | goto n =>
    obtain ⟨w, hw⟩ := exists_word_eq_ok (Action.within_goto.1 hwithin)
    exact ⟨gotoKind, w, [], bind_eq_ok.2 ⟨w, hw, rfl⟩, rfl⟩

/-- Cells with numbers of 32 bits are written where the lists of competing rules end early enough. -/
lemma exists_encodeCells_eq_ok (offset : Nat) {l : List (Cell × Action)}
    (hstates : ∀ p ∈ l, p.1.state < UInt32.size) (hactions : ∀ p ∈ l, p.2.Within UInt32.size UInt32.size)
    (hlists : offset + (l.flatMap fun p => p.2.listing).length < UInt32.size) :
    ∃ r, encodeCells offset l = .ok r := by
  induction l generalizing offset with
  | nil => exact ⟨_, rfl⟩
  | cons p l ih =>
    rw [List.flatMap_cons, List.length_append] at hlists
    obtain ⟨hstate, hstates⟩ := List.forall_mem_cons.1 hstates
    obtain ⟨haction, hactions⟩ := List.forall_mem_cons.1 hactions
    obtain ⟨kind, value, part, hpart, hlisting⟩ := exists_encodeAction_eq_ok offset haction (by omega)
    have hlength : part.length = p.2.listing.length := by rw [← hlisting, List.length_map]
    obtain ⟨state, hword⟩ := exists_word_eq_ok hstate
    obtain ⟨⟨es, pool⟩, hrest⟩ := ih (offset + part.length) hstates hactions (by omega)
    exact ⟨_, bind_eq_ok.2 ⟨_, hpart, bind_eq_ok.2 ⟨state, hword, bind_eq_ok.2 ⟨_, hrest, rfl⟩⟩⟩⟩

/-- The ends of bodies are written where the last one comes early enough. -/
lemma exists_encodeOffsets_eq_ok (start : Nat) {rules : List Rule}
    (h : start + (bodies rules).length < UInt32.size) : ∃ offsets, encodeOffsets start rules = .ok offsets := by
  induction rules generalizing start with
  | nil => exact ⟨[], rfl⟩
  | cons r rules ih =>
    rw [bodies_cons, List.length_append, List.length_map] at h
    obtain ⟨next, hnext⟩ := exists_word_eq_ok (n := start + r.rhs.length) (by omega)
    obtain ⟨offsets, hoffsets⟩ := ih (start + r.rhs.length) (by omega)
    exact ⟨next :: offsets, bind_eq_ok.2 ⟨next, hnext, bind_eq_ok.2 ⟨offsets, hoffsets, rfl⟩⟩⟩

end FlatTable

/-- A table whose numbers and arrays are small enough has a flat form. -/
lemma Table.Encodable.exists_toFlat {t : Table} (h : t.Encodable) : ∃ f, t.toFlat = .ok f := by
  obtain ⟨start, hstart⟩ := FlatTable.exists_word_eq_ok h.start
  obtain ⟨r, hr⟩ := FlatTable.exists_encodeCells_eq_ok 0 h.states h.actions (by simpa using h.lists)
  obtain ⟨offsets, hoffsets⟩ := FlatTable.exists_encodeOffsets_eq_ok 0 (by simpa using h.bodies)
  exact ⟨_, bind_eq_ok.2 ⟨start, hstart, bind_eq_ok.2 ⟨r, hr, bind_eq_ok.2 ⟨offsets, hoffsets, rfl⟩⟩⟩⟩

end Lalr
