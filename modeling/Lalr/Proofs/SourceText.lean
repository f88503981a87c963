import Lalr.Table.Source
import Lalr.Proofs.Settle

/-!
# Tables read back from source text

The text of a module determines the flat table that it holds.  `Source.read` is a reader for such texts that knows
nothing of the table and of the names that the text was written with: it looks for the first equality sign, which
belongs to the start state, and then reads the eight arrays one after the other, each with the number of elements that
it declares.

That a reader takes exactly a given text off what stands before it, and returns a value for it, is the relation
`Source.Takes`.  For numbers it depends on what comes next, which may not be a digit; the declarations of arrays and
the module as a whole follow by composition.
-/

namespace Lalr

namespace Source

/-! ### Readers -/

/-- A reader takes characters off the beginning of a text. -/
abbrev Reader := StateT (List Char) Option

/-- Takes off a given text. -/
def expect (text : String) : Reader Unit := fun cs =>
  (cs.dropPrefix? text.toList).map fun rest => ((), rest)

/-- Takes off everything before a character, which has to be there. -/
def skipTo (c : Char) : Reader Unit := fun cs =>
  if c ∈ cs then some ((), cs.dropWhile (· != c)) else none

/-- Takes off the digits of a number. -/
def number : Reader Nat := fun cs =>
  match cs.takeWhile Char.isDigit with
  | [] => none
  | digits => some (Nat.ofDigitChars 10 digits 0, cs.dropWhile Char.isDigit)

/-- Takes off a minus sign with its blank, if it is there. -/
def minus : Reader Bool := fun cs =>
  match cs with
  | '-' :: ' ' :: rest => some (true, rest)
  | _ => some (false, cs)

/-- Reads a number below a bound. -/
def numberBelow (bound : Nat) : Reader Nat := do
  let n ← number
  if n < bound then pure n else failure

/-- Reads a word of 32 bits. -/
def word : Reader UInt32 := do
  let n ← numberBelow UInt32.size
  pure (UInt32.ofNat n)

/-- Reads a word of 8 bits. -/
def octet : Reader UInt8 := do
  let n ← numberBelow UInt8.size
  pure (UInt8.ofNat n)

/-- Reads the sign and the magnitude of a signed word of 32 bits.  A magnitude may be larger by one behind a sign. -/
def signedWord : Reader Int32 := do
  let negative ← minus
  if negative then
    let n ← numberBelow 2147483649
    pure (Int32.ofInt (Int.negOfNat n))
  else
    let n ← numberBelow 2147483648
    pure (Int32.ofInt (Int.ofNat n))

/-- Reads a number of values with commas between them. -/
def elements {α : Type} (value : Reader α) : Nat → Reader (List α)
  | 0 => pure []
  | 1 => do
    let a ← value
    pure [a]
  | n + 2 => do
    let a ← value
    expect " , "
    let rest ← elements value (n + 1)
    pure (a :: rest)

/-- Reads the declaration of a static array, and returns the declared length with the values. -/
def declaration {α : Type} (name type : String) (value : Reader α) : Reader (Nat × List α) := do
  expect "static "
  expect name
  expect " : ["
  expect type
  expect " ; "
  let length ← number
  expect "usize] = ["
  let values ← elements value length
  expect "] ; "
  pure (length, values)

/-- Reads the start state and the arrays of a module, and returns the flat table with the declared lengths. -/
def contents : Reader (FlatTable × List Nat) := do
  skipTo '='
  expect "= "
  let startState ← word
  expect " ; "
  let actionStates ← declaration "ACTION_STATES" "u32" word
  let actionSymbols ← declaration "ACTION_SYMBOLS" "i32" signedWord
  let actionKinds ← declaration "ACTION_KINDS" "u8" octet
  let actionValues ← declaration "ACTION_VALUES" "u32" word
  let reduceMulti ← declaration "REDUCE_MULTI" "u32" word
  let ruleLhs ← declaration "RULE_LHS" "i32" signedWord
  let ruleRhsOffsets ← declaration "RULE_RHS_OFFSETS" "u32" word
  let ruleRhs ← declaration "RULE_RHS" "i32" signedWord
  pure (⟨startState, actionStates.2, actionSymbols.2, actionKinds.2, actionValues.2, reduceMulti.2, ruleLhs.2,
      ruleRhsOffsets.2, ruleRhs.2⟩,
    [actionStates.1, actionSymbols.1, actionKinds.1, actionValues.1, reduceMulti.1, ruleLhs.1, ruleRhsOffsets.1,
      ruleRhs.1])

/-- The flat table in the text of a module, with the lengths that its arrays declare. -/
def read (text : String) : Option (FlatTable × List Nat) :=
  (contents.run text.toList).map Prod.fst

/-! ### Taking off a text -/

/-- The reader takes the text off and returns the value, when the text is followed by `rest`. -/
def Takes {α : Type} (reader : Reader α) (text : String) (rest : List Char) (a : α) : Prop :=
  reader.run (text.toList ++ rest) = some (a, rest)

/-- What comes next is not a digit. -/
def Apart (rest : List Char) : Prop :=
  ∀ c ∈ rest.head?, c.isDigit = false

variable {α β : Type} {rest : List Char}

/-- Two texts after each other are taken off by two readers after each other. -/
lemma Takes.bind {reader : Reader α} {next : α → Reader β} {text text' : String} {a : α} {b : β}
    (h : Takes reader text (text'.toList ++ rest) a) (h' : Takes (next a) text' rest b) :
    Takes (reader >>= next) (text ++ text') rest b := by
  unfold Takes at h h' ⊢
  rw [String.toList_append, List.append_assoc, StateT.run_bind, h]
  exact h'

/-- After the last text of a sequence the value is returned. -/
lemma Takes.map {reader : Reader α} {next : α → Reader β} {text : String} {a : α} {b : β}
    (h : Takes reader text rest a) (h' : next a = pure b) : Takes (reader >>= next) text rest b := by
  unfold Takes at h ⊢
  rw [StateT.run_bind, h]
  change (next a).run rest = _
  rw [h']
  rfl

/-- The expected text is taken off. -/
lemma takes_expect (text : String) : Takes (expect text) text rest () := by
  have hdrop : (text.toList ++ rest).dropPrefix? text.toList = some rest :=
    List.dropPrefix?_append_of_beq rest (by simp)
  change (List.dropPrefix? _ _).map _ = _
  rw [hdrop]
  rfl

/-- What comes before a character is taken off, if it does not have this character in it. -/
lemma takes_skipTo {c : Char} {text : String} (h : c ∉ text.toList) (hrest : rest.head? = some c) :
    Takes (skipTo c) text rest () := by
  obtain ⟨cs, rfl⟩ := List.head?_eq_some_iff.1 hrest
  have hall : ∀ d ∈ text.toList, (d != c) = true := by
    intro d hd
    rw [bne_iff_ne]
    rintro rfl
    exact h hd
  change (if c ∈ text.toList ++ c :: cs then some ((), (text.toList ++ c :: cs).dropWhile (· != c)) else none) = _
  rw [if_pos (by simp), List.dropWhile_append_of_pos hall, List.dropWhile_cons_of_neg (by simp)]

/-- A text begins as its first part does. -/
lemma head?_append {c : Char} {text text' : String} (h : text.toList.head? = some c) :
    ((text ++ text').toList ++ rest).head? = some c := by
  rw [String.toList_append, List.append_assoc, List.head?_append, h]
  rfl

/-! ### Numbers -/

/-- The characters of a number are its decimal digits. -/
lemma toList_unsigned (n : Nat) : (unsigned n).toList = Nat.toDigits 10 n := by
  rw [unsigned, Nat.toString_eq_repr, Nat.toList_repr]

/-- All characters of a number are digits. -/
lemma isDigit_of_mem_unsigned {n : Nat} {c : Char} (hc : c ∈ (unsigned n).toList) : c.isDigit = true := by
  rw [toList_unsigned] at hc
  exact Nat.isDigit_of_mem_toDigits (by decide) (by decide) hc

/-- A number has a first digit. -/
lemma exists_toList_unsigned (n : Nat) : ∃ d ds, (unsigned n).toList = d :: ds := by
  refine List.exists_cons_of_ne_nil ?_
  rw [toList_unsigned]
  exact Nat.toDigits_ne_nil

/-- A text that does not begin with a digit stands apart from a number before it. -/
lemma apart_text {text : String} {c : Char} (h : text.toList.head? = some c) (hc : c.isDigit = false) :
    Apart (text.toList ++ rest) := by
  intro d hd
  rw [List.head?_append, h] at hd
  obtain rfl := Option.some.inj hd
  exact hc

/-- A text stands apart from a number before it if its first part does. -/
lemma apart_append {text text' : String} {c : Char} (h : text.toList.head? = some c) (hc : c.isDigit = false) :
    Apart ((text ++ text').toList ++ rest) := by
  rw [String.toList_append, List.append_assoc]
  exact apart_text h hc

/-- The digits of a number are taken off. -/
lemma takes_number (hrest : Apart rest) (n : Nat) : Takes number (unsigned n) rest n := by
  have hdigits : ∀ c ∈ (unsigned n).toList, c.isDigit = true := fun c hc => isDigit_of_mem_unsigned hc
  have hstop : rest.takeWhile Char.isDigit = [] ∧ rest.dropWhile Char.isDigit = rest := by
    cases rest with
    | nil => exact ⟨rfl, rfl⟩
    | cons c cs =>
      have hc : c.isDigit = false := hrest c rfl
      exact ⟨List.takeWhile_cons_of_neg (by simp [hc]), List.dropWhile_cons_of_neg (by simp [hc])⟩
  have hvalue : Nat.ofDigitChars 10 (unsigned n).toList 0 = n := by
    rw [toList_unsigned, Nat.ofDigitChars_ten_toDigits]
  obtain ⟨d, ds, hcons⟩ := exists_toList_unsigned n
  change number ((unsigned n).toList ++ rest) = _
  unfold number
  rw [List.takeWhile_append_of_pos hdigits, List.dropWhile_append_of_pos hdigits, hstop.1, hstop.2, List.append_nil,
    hcons]
  rw [hcons] at hvalue
  exact congrArg (fun m => some (m, rest)) hvalue

/-- The digits of a number below the bound are taken off. -/
lemma takes_numberBelow (hrest : Apart rest) {n bound : Nat} (hn : n < bound) :
    Takes (numberBelow bound) (unsigned n) rest n :=
  (takes_number hrest n).map (if_pos hn)

/-- A word of 32 bits is read back. -/
lemma takes_word (n : UInt32) (hrest : Apart rest) : Takes word (unsigned n.toNat) rest n :=
  (takes_numberBelow hrest n.toNat_lt_size).map (by rw [UInt32.ofNat_toNat])

/-- A word of 8 bits is read back. -/
lemma takes_octet (n : UInt8) (hrest : Apart rest) : Takes octet (unsigned n.toNat) rest n :=
  (takes_numberBelow hrest n.toNat_lt_size).map (by rw [UInt8.ofNat_toNat])

/-- There is no sign to take off a number. -/
lemma takes_minus_unsigned (n : Nat) : Takes minus "" ((unsigned n).toList ++ rest) false := by
  obtain ⟨d, ds, hcons⟩ := exists_toList_unsigned n
  have hne : d ≠ '-' := by
    rintro rfl
    have hdigit : '-'.isDigit = true := isDigit_of_mem_unsigned (n := n) (hcons ▸ List.mem_cons_self)
    exact absurd hdigit (by decide)
  rw [hcons]
  change minus (d :: (ds ++ rest)) = some (false, d :: (ds ++ rest))
  unfold minus
  split
  · next heq => exact absurd (List.cons.inj heq).1 hne
  · rfl

/-- A signed word is read back from its sign and its magnitude, the least one included, whose magnitude is not that of
another signed word. -/
lemma takes_signedWord (n : Int32) (hrest : Apart rest) : Takes signedWord (signed n) rest n := by
  have hlower := n.le_toInt
  have hupper := n.toInt_lt
  unfold signed
  by_cases hneg : n.toInt < 0
  · rw [if_pos hneg]
    have hminus : Takes minus "- " ((unsigned n.toInt.natAbs).toList ++ rest) true := rfl
    refine hminus.bind ((takes_numberBelow hrest (by omega)).map ?_)
    have habs : Int.negOfNat n.toInt.natAbs = n.toInt := by
      rw [Int.negOfNat_eq, Int.ofNat_eq_natCast]
      omega
    rw [habs, Int32.ofInt_toInt]
  · rw [if_neg hneg, ← String.empty_append (s := unsigned _)]
    refine (takes_minus_unsigned _).bind ((takes_numberBelow hrest (by omega)).map ?_)
    have habs : Int.ofNat n.toInt.natAbs = n.toInt := Int.natAbs_of_nonneg (Int.not_lt.1 hneg)
    rw [habs, Int32.ofInt_toInt]

/-! ### Arrays -/

section

variable {value : Reader α} {text : α → String}
  (hvalue : ∀ {rest : List Char} (a : α), Apart rest → Takes value (text a) rest a)
include hvalue

/-- Values with commas between them are read back. -/
lemma takes_elements (values : List α) (hrest : Apart rest) :
    Takes (elements value values.length) (" , ".intercalate (values.map text)) rest values := by
  induction values with
  | nil => rfl
  | cons a values ih =>
    cases values with
    | nil =>
      rw [List.map_singleton, String.intercalate_singleton]
      exact (hvalue a hrest).map rfl
    | cons b values =>
      rw [List.map_cons, List.map_cons, String.intercalate_cons_cons, String.append_assoc]
      exact (hvalue a (apart_append (c := ' ') (by decide) (by decide))).bind ((takes_expect _).bind (ih.map rfl))

/-- The declaration of an array is read back, with its length. -/
lemma takes_declaration (name type : String) (values : List α) :
    Takes (declaration name type value) (staticArray name type (values.map text)) rest (values.length, values) := by
  unfold declaration staticArray
  simp only [String.append_assoc, List.length_map]
  have hclose : Apart ("] ; ".toList ++ rest) := apart_text (c := ']') (by decide) (by decide)
  have hlength (text' : String) :
      Takes number (unsigned values.length) (("usize] = [" ++ text').toList ++ rest) values.length :=
    takes_number (apart_append (c := 'u') (by decide) (by decide)) _
  refine (takes_expect _).bind ((takes_expect _).bind ((takes_expect _).bind ((takes_expect _).bind ?_)))
  exact (takes_expect _).bind ((hlength _).bind ((takes_expect _).bind
    ((takes_elements hvalue values hclose).bind ((takes_expect _).map rfl))))

end

end Source

/-! ### Modules -/

namespace FlatTable

/-- The numbers of elements of the eight arrays. -/
def lengths (f : FlatTable) : List Nat :=
  [f.actionStates.length, f.actionSymbols.length, f.actionKinds.length, f.actionValues.length,
    f.reduceMulti.length, f.ruleLhs.length, f.ruleRhsOffsets.length, f.ruleRhs.length]

end FlatTable

namespace Source

variable {rest : List Char}

/-- The start state and the arrays are read back, whatever comes before and after them. -/
lemma takes_contents (f : FlatTable) {before : String} (hbefore : '=' ∉ before.toList) :
    Takes contents (before ++ ("= " ++ (unsigned f.startState.toNat ++ (" ; " ++ arrays f)))) rest (f, f.lengths) := by
  unfold contents arrays
  simp only [String.append_assoc]
  have hstart (text' : String) :
      Takes word (unsigned f.startState.toNat) ((" ; " ++ text').toList ++ rest) f.startState :=
    takes_word _ (apart_append (c := ' ') (by decide) (by decide))
  refine (takes_skipTo hbefore (head?_append (by decide))).bind ((takes_expect _).bind ((hstart _).bind
    ((takes_expect _).bind ?_)))
  refine (takes_declaration takes_word _ _ _).bind ((takes_declaration takes_signedWord _ _ _).bind ?_)
  refine (takes_declaration takes_octet _ _ _).bind ((takes_declaration takes_word _ _ _).bind ?_)
  refine (takes_declaration takes_word _ _ _).bind ((takes_declaration takes_signedWord _ _ _).bind ?_)
  exact (takes_declaration takes_word _ _ _).bind ((takes_declaration takes_signedWord _ _ _).map rfl)

/-- The flat table in the text of a module is read back, with the lengths that its arrays declare. -/
lemma read_moduleText (f : FlatTable) {options : SourceOptions} (hname : '=' ∉ options.name.toList)
    (hvisibility : '=' ∉ options.visibility.text.toList) :
    read (moduleText f options) = some (f, f.lengths) := by
  set before := options.visibility.text ++ ("mod " ++ (options.name ++
    (" \x7b # ! [allow (dead_code)] " ++ "pub const START_STATE : u32 "))) with hbefore
  set after := flatFunction options.library.text ++ (tableFunction options.library.text ++ "\x7d") with hafter
  have hequals : '=' ∉ before.toList := by
    simp only [hbefore, String.toList_append, List.mem_append, not_or]
    exact ⟨hvisibility, by decide, hname, by decide, by decide⟩
  have hliteral : "pub const START_STATE : u32 = " = "pub const START_STATE : u32 " ++ "= " := by decide
  have htext : moduleText f options =
      before ++ ("= " ++ (unsigned f.startState.toNat ++ (" ; " ++ arrays f))) ++ after := by
    unfold moduleText
    rw [hliteral, hbefore, hafter]
    simp only [String.append_assoc]
  have htakes : Takes contents (before ++ ("= " ++ (unsigned f.startState.toNat ++ (" ; " ++ arrays f))))
      after.toList (f, f.lengths) := takes_contents f hequals
  unfold Takes at htakes
  rw [read, htext, String.toList_append, htakes]
  rfl

end Source

/-- The text of a module carries the whole table, provided that the names in front of the arrays have no equality sign
in them, as no identifier has.  The reader gets back the flat form and the number of elements of each array, every
signed word from its sign and magnitude, and two tables have the same text exactly if they have the same flat form. -/
theorem Table.toSource_is_readable (options : SourceOptions) (hname : '=' ∉ options.name.toList)
    (hvisibility : '=' ∉ options.visibility.text.toList) :
    (∀ (t : Table) f, t.toFlat = .ok f → ∃ text notices,
      t.toSource options = .ok (text, notices) ∧ Source.read text = some (f, f.lengths)) ∧
    (∀ n : Int32, Source.signedWord.run (Source.signed n).toList = some (n, [])) ∧
    ∀ (t t' : Table) f f', t.toFlat = .ok f → t'.toFlat = .ok f' →
      (Prod.fst <$> t.toSource options = Prod.fst <$> t'.toSource options ↔ f = f') := by
  have hsource {t : Table} {f : FlatTable} (hf : t.toFlat = .ok f) : ∃ notices,
      t.toSource options = .ok (Source.moduleText f options, notices) := by
    rw [toSource, hf]
    exact ⟨_, rfl⟩
  have hread (f : FlatTable) := Source.read_moduleText f hname hvisibility
  refine ⟨fun t f hf => ?_, fun n => ?_, fun t t' f f' hf hf' => ?_⟩
  · obtain ⟨notices, hnotices⟩ := hsource hf
    exact ⟨_, notices, hnotices, hread f⟩
  · have htakes : Source.Takes Source.signedWord (Source.signed n) [] n := Source.takes_signedWord n nofun
    rwa [Source.Takes, List.append_nil] at htakes
  · obtain ⟨notices, hnotices⟩ := hsource hf
    obtain ⟨notices', hnotices'⟩ := hsource hf'
    rw [hnotices, hnotices']
    constructor
    · intro heq
      have htext : Source.moduleText f options = Source.moduleText f' options := Except.ok.inj heq
      have hboth := hread f
      rw [htext, hread f'] at hboth
      exact (congrArg Prod.fst (Option.some.inj hboth)).symm
    · rintro rfl
      rfl

/-- A table with the least and the greatest signed word. -/
def Table.extremes : Table :=
  ofList 0 [(⟨0, ⟨Int32.minValue⟩⟩, .shift 1)] #[⟨0, ⟨0⟩, [⟨Int32.maxValue⟩, ⟨-1⟩]⟩]

/-- The least signed word is read back from the text of a table, also among others, and the text differs from that of
a table without cells. -/
theorem Table.toSource_is_readable_extremes :
    ∃ f text notices, extremes.toFlat = .ok f ∧ f.actionSymbols = [Int32.minValue] ∧ f.reduceMulti = [] ∧
      f.ruleRhs = [Int32.maxValue, -1] ∧
      extremes.toSource ⟨"table", ⟨true, ["lalrkit"]⟩, .everywhere⟩ = .ok (text, notices) ∧
      Source.read text = some (f, [1, 1, 1, 1, 0, 1, 2, 2]) ∧
      Source.signedWord.run (Source.signed Int32.minValue).toList = some (Int32.minValue, []) ∧
      Prod.fst <$> extremes.toSource ⟨"table", ⟨true, ["lalrkit"]⟩, .everywhere⟩ ≠
        Prod.fst <$> (ofList 0 [] extremes.rules).toSource ⟨"table", ⟨true, ["lalrkit"]⟩, .everywhere⟩ := by
  obtain ⟨hread, hsigned, hsame⟩ :=
    toSource_is_readable ⟨"table", ⟨true, ["lalrkit"]⟩, .everywhere⟩ (by decide) (by decide)
  have hflat : extremes.toFlat = .ok ⟨0, [0], [Int32.minValue], [1], [1], [], [0], [0, 2], [Int32.maxValue, -1]⟩ := by
    decide +kernel
  have hempty : (ofList 0 [] extremes.rules).toFlat =
      .ok ⟨0, [], [], [], [], [], [0], [0, 2], [Int32.maxValue, -1]⟩ := by decide +kernel
  obtain ⟨text, notices, htext, hback⟩ := hread _ _ hflat
  refine ⟨_, text, notices, hflat, rfl, rfl, rfl, htext, hback, hsigned _, fun h => ?_⟩
  have heq := (hsame _ _ _ _ hflat hempty).1 h
  exact absurd (congrArg FlatTable.actionStates heq) (by decide)

end Lalr
