import Lalr.Proofs.Flat.Reading

/-!
# Reading flat tables by position

Flat data can hold anything, also offsets and counts that lead out of their arrays.  `FlatTable.scan` reads the
arrays by position.  Next to inconsistent data, which it reports, it can come to an overrun: a position outside
an array.  Every position is checked before it is used, against the length of the array itself or of one that was
found to have the same length, so that no data bring about an overrun, and the outcome is that of reading without
positions (`FlatTable.scan_gives`).
-/

namespace Lalr

/-- A computation on flat data: it may report that they are inconsistent, and overruns if it leaves an array. -/
abbrev Scan := ExceptT FlatError (Except Overrun)

namespace Scan

/-- A check that looks at no array. -/
def check {α : Type} (x : Except FlatError α) : Scan α := ExceptT.mk (.ok x)

/-- The element of an array at a position; a position outside the array is an overrun. -/
def element {α : Type} (xs : List α) (i : Nat) : Scan α :=
  match xs[i]? with
  | some x => check (.ok x)
  | none => ExceptT.mk (.error ⟨xs.length, i⟩)

/-- The part of an array between two positions; one that does not lie in the array is an overrun. -/
def part {α : Type} (xs : List α) (lo hi : Nat) : Scan (List α) :=
  if lo ≤ hi ∧ hi ≤ xs.length then check (.ok ((xs.drop lo).take (hi - lo)))
  else ExceptT.mk (.error ⟨xs.length, hi⟩)

/-- The computation leaves no array and comes to the given result. -/
def Gives {α : Type} (x : Scan α) (y : Except FlatError α) : Prop := x.run = .ok y

variable {α β : Type}

/-- A check gives its result. -/
lemma gives_check (x : Except FlatError α) : (check x).Gives x := rfl

/-- Computations one after the other give their results one after the other. -/
lemma Gives.bind {x : Scan α} {y : Except FlatError α} {k : α → Scan β} {l : α → Except FlatError β}
    (hx : x.Gives y) (hk : ∀ a, y = .ok a → (k a).Gives (l a)) : (x >>= k).Gives (y >>= l) := by
  unfold Gives at hx ⊢
  rw [ExceptT.run_bind, hx]
  cases y with
  | error e => rfl
  | ok a => exact hk a rfl

/-- After an element that is there comes what is computed from it. -/
lemma gives_element {xs : List α} {i : Nat} {x : α} {k : α → Scan β} {y : Except FlatError β}
    (hx : xs[i]? = some x) (hk : (k x).Gives y) : (element xs i >>= k).Gives y := by
  unfold element
  rw [hx]
  exact hk

/-- After a part that lies in the array comes what is computed from it. -/
lemma gives_part {xs : List α} {lo hi : Nat} {k : List α → Scan β} {y : Except FlatError β} (hle : lo ≤ hi)
    (hlength : hi ≤ xs.length) (hk : (k ((xs.drop lo).take (hi - lo))).Gives y) :
    (part xs lo hi >>= k).Gives y := by
  unfold part
  rw [if_pos ⟨hle, hlength⟩]
  exact hk

end Scan

namespace FlatTable

/-! ### Rules -/

/-- The rules from number `n` on, by the positions of their offsets. -/
def scanRules (f : FlatTable) : Nat → Nat → List Int32 → Scan (List Rule × Nat)
  | _, start, [] => Scan.check (.ok ([], start))
  | n, start, lhs :: lhss => do
    let lo ← Scan.element f.ruleRhsOffsets n
    let hi ← Scan.element f.ruleRhsOffsets (n + 1)
    if lo.toNat ≠ start ∨ hi.toNat < lo.toNat ∨ f.ruleRhs.length < hi.toNat then
      Scan.check (.error (.outOfRange "rule_rhs_offsets" hi.toNat))
    else do
      let body ← Scan.part f.ruleRhs lo.toNat hi.toNat
      let (rules, stop) ← f.scanRules (n + 1) hi.toNat lhss
      Scan.check (.ok (⟨n, ⟨lhs⟩, body.map Symbol.mk⟩ :: rules, stop))

variable {f : FlatTable}

/-- Where there is one offset more than there are rules, reading the rules leaves no array. -/
lemma scanRules_gives {lhss : List Int32} {n start : Nat}
    (hlength : f.ruleRhsOffsets.length = n + lhss.length + 1) :
    (f.scanRules n start lhss).Gives (decodeRules f.ruleRhs n start lhss (f.ruleRhsOffsets.drop n)) := by
  induction lhss generalizing n start with
  | nil =>
    have hnone : decodeRules f.ruleRhs n start [] (f.ruleRhsOffsets.drop n) = .ok ([], start) := by
      simp [decodeRules]
    rw [hnone]
    exact Scan.gives_check _
  | cons lhs lhss ih =>
    rw [List.length_cons] at hlength
    have hlo : n < f.ruleRhsOffsets.length := by omega
    have hhi : n + 1 < f.ruleRhsOffsets.length := by omega
    have htail : (f.scanRules (n + 1) f.ruleRhsOffsets[n + 1].toNat lhss).Gives _ := ih (by omega)
    rw [List.drop_eq_getElem_cons hhi] at htail
    rw [List.drop_eq_getElem_cons hlo, List.drop_eq_getElem_cons hhi, decodeRules]
    refine Scan.gives_element (List.getElem?_eq_getElem hlo) ?_
    refine Scan.gives_element (List.getElem?_eq_getElem hhi) ?_
    split
    · exact Scan.gives_check _
    · rename_i hgood
      refine Scan.gives_part (by omega) (by omega) (htail.bind fun r _ => Scan.gives_check _)

/-! ### Entries -/

/-- The competing rules listed at an offset, by position. -/
def scanMulti (f : FlatTable) (value : UInt32) : Scan RuleSet := do
  let offset ← Scan.check (index "reduce_multi offset" value f.reduceMulti.length)
  let count ← Scan.element f.reduceMulti offset
  if f.reduceMulti.length < offset + 1 + count.toNat then Scan.check (.error (.lengthMismatch "reduce_multi"))
  else do
    let numbers ← Scan.part f.reduceMulti (offset + 1) (offset + 1 + count.toNat)
    let rules ← Scan.check (numbers.mapM fun r => index "reduce rule" r f.ruleLhs.length)
    Scan.check (.ok (.ofList rules))

/-- Looking up competing rules leaves no array. -/
lemma scanMulti_gives (f : FlatTable) (value : UInt32) : (f.scanMulti value).Gives (f.decodeMulti value) := by
  refine (Scan.gives_check _).bind fun offset hoffset => ?_
  obtain ⟨rfl, hlt⟩ := index_eq_ok_iff.1 hoffset
  refine Scan.gives_element (List.getElem?_eq_getElem hlt) ?_
  simp only [List.drop_eq_getElem_cons hlt, List.length_drop]
  -- there are fewer words after the count than it says when they reach beyond the end
  by_cases hshort : f.reduceMulti.length < value.toNat + 1 + f.reduceMulti[value.toNat].toNat
  · rw [if_pos hshort, if_pos (by omega)]
    exact Scan.gives_check _
  · rw [if_neg hshort, if_neg (by omega)]
    refine Scan.gives_part (by omega) (by omega) ?_
    rw [Nat.add_sub_cancel_left]
    exact (Scan.gives_check _).bind fun rules _ => Scan.gives_check _

/-- The action of an entry; only competing rules are looked up in an array. -/
def scanAction (f : FlatTable) (states position : Nat) (e : FlatEntry) : Scan Action :=
  if e.kind = reduceMultiKind then do
    let rules ← f.scanMulti e.value
    Scan.check (.ok (.reduceMulti rules))
  else Scan.check (f.decodeAction states position e)

/-- Reading the action of an entry leaves no array. -/
lemma scanAction_gives (f : FlatTable) (states position : Nat) (e : FlatEntry) :
    (f.scanAction states position e).Gives (f.decodeAction states position e) := by
  unfold scanAction
  split
  · rename_i hkind
    have haction : f.decodeAction states position e =
        f.decodeMulti e.value >>= fun rules => .ok (.reduceMulti rules) := by
      rw [decodeAction, hkind]
      rfl
    rw [haction]
    exact (f.scanMulti_gives e.value).bind fun rules _ => Scan.gives_check _
  · exact Scan.gives_check _

/-- Adds a number of entries from a position on to the cells read before them, by position. -/
def scanEntries (f : FlatTable) (states : Nat) :
    Nat → Nat → Std.ExtTreeMap Cell Action → Scan (Std.ExtTreeMap Cell Action)
  | 0, _, cells => Scan.check (.ok cells)
  | count + 1, position, cells => do
    let state ← Scan.element f.actionStates position
    let symbol ← Scan.element f.actionSymbols position
    let value ← Scan.element f.actionValues position
    let kind ← Scan.element f.actionKinds position
    let e : FlatEntry := ⟨state, symbol, kind, value⟩
    let action ← f.scanAction states position e
    if e.cell ∈ cells then Scan.check (.error (.duplicateAction e.cell.state e.cell.symbol))
    else f.scanEntries states count (position + 1) (cells.insert e.cell action)

/-- The entry at a position has the elements of the four arrays there. -/
lemma getElem?_entries {i : Nat} {state value : UInt32} {symbol : Int32} {kind : UInt8}
    (hstate : f.actionStates[i]? = some state) (hsymbol : f.actionSymbols[i]? = some symbol)
    (hkind : f.actionKinds[i]? = some kind) (hvalue : f.actionValues[i]? = some value) :
    f.entries[i]? = some ⟨state, symbol, kind, value⟩ := by
  simp [entries, List.getElem?_zip_eq_some, hstate, hsymbol, hkind, hvalue]

/-- Where the four arrays have the same length, reading the entries leaves none of them. -/
lemma scanEntries_gives (hsymbols : f.actionSymbols.length = f.actionStates.length)
    (hkinds : f.actionKinds.length = f.actionStates.length)
    (hvalues : f.actionValues.length = f.actionStates.length) {states count position : Nat}
    {cells : Std.ExtTreeMap Cell Action} (hlength : position + count = f.actionStates.length) :
    (f.scanEntries states count position cells).Gives
      (f.decodeEntries states position (f.entries.drop position) cells) := by
  induction count generalizing position cells with
  | zero =>
    have hnone : f.entries.drop position = [] := by
      rw [List.drop_eq_nil_iff, entries, List.length_map]
      simp only [List.length_zip]
      omega
    rw [hnone]
    exact Scan.gives_check _
  | succ count ih =>
    have hstate := List.getElem?_eq_getElem (l := f.actionStates) (i := position) (by omega)
    have hsymbol := List.getElem?_eq_getElem (l := f.actionSymbols) (i := position) (by omega)
    have hvalue := List.getElem?_eq_getElem (l := f.actionValues) (i := position) (by omega)
    have hkind := List.getElem?_eq_getElem (l := f.actionKinds) (i := position) (by omega)
    obtain ⟨hlt, hentry⟩ := List.getElem?_eq_some_iff.1 (getElem?_entries hstate hsymbol hkind hvalue)
    rw [List.drop_eq_getElem_cons hlt, hentry, decodeEntries_cons]
    refine Scan.gives_element hstate (Scan.gives_element hsymbol (Scan.gives_element hvalue
      (Scan.gives_element hkind ((f.scanAction_gives _ _ _).bind fun action _ => ?_))))
    split
    · exact Scan.gives_check _
    · exact ih (by omega)

/-! ### The whole table -/

/-- The table of flat data, whose arrays are read by position. -/
def scan (f : FlatTable) : Scan Table :=
  if f.ruleRhsOffsets.length ≠ f.ruleLhs.length + 1 then
    Scan.check (.error (.lengthMismatch "rule_rhs_offsets"))
  else do
    let (rules, stop) ← f.scanRules 0 0 f.ruleLhs
    if stop ≠ f.ruleRhs.length then Scan.check (.error (.lengthMismatch "rule_rhs"))
    else if f.actionSymbols.length ≠ f.actionStates.length then
      Scan.check (.error (.lengthMismatch "action_symbols"))
    else if f.actionKinds.length ≠ f.actionStates.length then
      Scan.check (.error (.lengthMismatch "action_kinds"))
    else if f.actionValues.length ≠ f.actionStates.length then
      Scan.check (.error (.lengthMismatch "action_values"))
    else do
      let cells ← f.scanEntries f.stateCount f.actionStates.length 0 ∅
      Scan.check (.ok { start := f.startState.toNat, cells, rules := rules.toArray })

/-- Reading flat data by position leaves no array, whatever they are, and comes to what reading them gives. -/
theorem scan_gives (f : FlatTable) : f.scan.Gives f.toTable := by
  rw [toTable_eq]
  unfold scan
  split
  · exact Scan.gives_check _
  · rename_i hoffsets
    refine (scanRules_gives (n := 0) (by omega)).bind fun r _ => ?_
    obtain ⟨rules, stop⟩ := r
    dsimp only
    split_ifs with hstop hsymbols hkinds hvalues
    · exact Scan.gives_check _
    · exact Scan.gives_check _
    · exact Scan.gives_check _
    · exact Scan.gives_check _
    · exact (scanEntries_gives (not_not.1 hsymbols) (not_not.1 hkinds) (not_not.1 hvalues) (Nat.zero_add _)).bind
        fun cells _ => Scan.gives_check _

end FlatTable

end Lalr
