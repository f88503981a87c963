import Lalr.Table.Construction

/-!
# Shared tables

A shared table is built when it is first asked for and kept from then on.  A failed attempt is not kept: the
next request tries again.
-/

namespace Lalr

/-- A table to be built on demand by a function with a memory of type `σ`. -/
structure SharedTable (σ : Type) where
  /-- Builds the table and notes what happens. -/
  build : σ → (Except Failure Table × List Notice) × σ
  /-- The table, once it has been built. -/
  table : Option Table := none

/-- The answer to a request for a shared table. -/
structure SharedTable.Reply (σ : Type) where
  /-- The table, or why it could not be built. -/
  result : Except Failure Table
  /-- The shared table after the request. -/
  shared : SharedTable σ
  /-- The memory of the building function after the request. -/
  memory : σ
  /-- What happened on the way. -/
  notices : List Notice

namespace SharedTable

variable {σ : Type}

/-- Whether the table has been built. -/
def isBuilt (s : SharedTable σ) : Bool := s.table.isSome

/-- Asks for the table. -/
def get (s : SharedTable σ) (memory : σ) : Reply σ :=
  match s.table with
  | some t => ⟨.ok t, s, memory, []⟩
  | none =>
    let ((result, notices), memory) := s.build memory
    match result with
    | .ok t => ⟨.ok t, { s with table := some t }, memory, .sharedTable :: notices⟩
    | .error e => ⟨.error e, s, memory, .sharedTable :: notices⟩

end SharedTable

end Lalr
