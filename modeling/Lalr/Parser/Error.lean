import Lalr.Symbol

/-!
# Parse errors

Why a parser refuses a token.  A token that is refused leaves the stack as it was.
-/

namespace Lalr

/-- Why a parser refuses a token. -/
inductive ParseError where
  /-- The token cannot follow the input read so far. -/
  | unexpected (expected : List Symbol) (found : Symbol)
  /-- The token would raise the stack above its limit. -/
  | stackOverflow (limit : Nat)
  /-- The parse is over. -/
  | finished
deriving DecidableEq

/-- The wording of a parse error. -/
def ParseError.message : ParseError → String
  | unexpected expected found =>
    s!"syntax error: found {found.text}, expected one of [" ++
      ", ".intercalate (expected.map Symbol.text) ++ "]"
  | stackOverflow limit => s!"parser stack overflow (limit {limit})"
  | finished => "the parser has already finished"

end Lalr
