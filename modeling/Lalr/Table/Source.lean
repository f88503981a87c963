import Lalr.Table.Flat
import Lalr.Notice

/-!
# Tables as source text

A table can be written out as a Rust module that holds its flat form in static arrays, with one function for
the flat form and one for the table.  The text is a sequence of tokens separated by single blanks, except
just inside round and square brackets.
-/

namespace Lalr

/-- A path of names. -/
structure ModulePath where
  /-- Whether the path starts from the outermost scope. -/
  isAbsolute : Bool
  /-- The names. -/
  segments : List String

namespace ModulePath

/-- Reads a path whose names are separated by double colons. -/
def ofString (s : String) : ModulePath :=
  match s.splitOn "::" with
  | "" :: segments => ⟨true, segments⟩
  | segments => ⟨false, segments⟩

/-- The tokens of a path. -/
def text (p : ModulePath) : String :=
  (if p.isAbsolute then ":: " else "") ++ " :: ".intercalate p.segments

end ModulePath

/-- From where a module can be seen. -/
inductive Visibility where
  /-- As far as the scope it stands in. -/
  | inherited
  /-- From everywhere. -/
  | everywhere
  /-- From a scope that has a keyword of its own. -/
  | restricted (scope : String)
  /-- From the scope at a path. -/
  | within (path : ModulePath)

namespace Visibility

/-- Reads a visibility: nothing, `pub`, `pub(crate)` and its like, or `pub(in a::b)`. -/
def ofString (s : String) : Visibility :=
  match s.toList with
  | [] => inherited
  | 'p' :: 'u' :: 'b' :: '(' :: rest =>
    match rest.takeWhile fun c => c != ')' with
    | 'i' :: 'n' :: ' ' :: path => within (ModulePath.ofString (String.ofList path))
    | scope => restricted (String.ofList scope)
  | _ => everywhere

/-- The tokens of a visibility, with a blank after them if there are any. -/
def text : Visibility → String
  | inherited => ""
  | everywhere => "pub "
  | restricted scope => "pub (" ++ scope ++ ") "
  | within path => "pub (in " ++ path.text ++ ") "

end Visibility

/-- How a table is written out. -/
structure SourceOptions where
  /-- The name of the module. -/
  name : String
  /-- The path of the library that the module uses. -/
  library : ModulePath
  /-- From where the module can be seen. -/
  visibility : Visibility

namespace Source

/-- The tokens of a number without sign. -/
def unsigned (n : Nat) : String := toString n

/-- The tokens of a number with sign: the sign is a token of its own. -/
def signed (n : Int32) : String :=
  if n.toInt < 0 then "- " ++ unsigned n.toInt.natAbs else unsigned n.toInt.natAbs

/-- The declaration of a static array, with a blank after it. -/
def staticArray (name type : String) (values : List String) : String :=
  "static " ++ name ++ " : [" ++ type ++ " ; " ++ unsigned values.length ++ "usize] = [" ++
    " , ".intercalate values ++ "] ; "

/-- The declarations of the eight arrays of a flat table. -/
def arrays (f : FlatTable) : String :=
  staticArray "ACTION_STATES" "u32" (f.actionStates.map fun n => unsigned n.toNat) ++
  staticArray "ACTION_SYMBOLS" "i32" (f.actionSymbols.map signed) ++
  staticArray "ACTION_KINDS" "u8" (f.actionKinds.map fun n => unsigned n.toNat) ++
  staticArray "ACTION_VALUES" "u32" (f.actionValues.map fun n => unsigned n.toNat) ++
  staticArray "REDUCE_MULTI" "u32" (f.reduceMulti.map fun n => unsigned n.toNat) ++
  staticArray "RULE_LHS" "i32" (f.ruleLhs.map signed) ++
  staticArray "RULE_RHS_OFFSETS" "u32" (f.ruleRhsOffsets.map fun n => unsigned n.toNat) ++
  staticArray "RULE_RHS" "i32" (f.ruleRhs.map signed)

/-- The function that returns the flat form, with a blank after it. -/
def flatFunction (library : String) : String :=
  "pub fn flat () -> " ++ library ++ " :: FlatTable < 'static > \x7b " ++
  library ++ " :: FlatTable \x7b start_state : START_STATE , " ++
  "action_states : & ACTION_STATES , action_symbols : & ACTION_SYMBOLS , " ++
  "action_kinds : & ACTION_KINDS , action_values : & ACTION_VALUES , " ++
  "reduce_multi : & REDUCE_MULTI , rule_lhs : & RULE_LHS , " ++
  "rule_rhs_offsets : & RULE_RHS_OFFSETS , rule_rhs : & RULE_RHS , \x7d \x7d "

/-- The function that returns the table, with a blank after it. -/
def tableFunction (library : String) : String :=
  "pub fn table () -> " ++ library ++ " :: LalrTable \x7b " ++
  "match " ++ library ++ " :: LalrTable :: from_flat (flat ()) \x7b " ++
  ":: core :: result :: Result :: Ok (table) => table , " ++
  ":: core :: result :: Result :: Err (e) => " ++
  "panic ! (\"corrupt generated table: \x7b\x7d\" , e) , \x7d \x7d "

/-- The module that holds a flat table. -/
def moduleText (f : FlatTable) (options : SourceOptions) : String :=
  let library := options.library.text
  options.visibility.text ++ "mod " ++ options.name ++ " \x7b # ! [allow (dead_code)] " ++
  "pub const START_STATE : u32 = " ++ unsigned f.startState.toNat ++ " ; " ++
  arrays f ++ flatFunction library ++ tableFunction library ++ "\x7d"

end Source

/-- Writes a table out as a module. -/
def Table.toSource (t : Table) (options : SourceOptions) : Except Fault (String × List Notice) := do
  let f ← t.toFlat
  .ok (Source.moduleText f options,
    [.emitting f.actionStates.length f.ruleLhs.length options.name])

end Lalr
