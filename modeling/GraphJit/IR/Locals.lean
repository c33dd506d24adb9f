import GraphJit.IR.ValueType
import GraphJit.Word

/-! # Local variables

Locals are numbered from zero. The table holds the type of each local that has
been declared; numbers may be skipped.
-/

namespace GraphJit

structure LocalTable where
  types : Array (Option ValueType) := #[]
deriving DecidableEq, Repr

namespace LocalTable

def count (table : LocalTable) : Nat :=
  table.types.size

/-- The declared type of a local. -/
def type? (table : LocalTable) (id : Nat) : Option ValueType :=
  table.types[id]?.getD none

/-- Extend the table so that it has an entry for `id`. -/
def reserve (table : LocalTable) (id : Nat) : LocalTable :=
  ⟨table.types ++ Array.replicate (id + 1 - table.types.size) none⟩

/-- Declare a local. The flag is false if it already has another type. -/
def declare (table : LocalTable) (id : Nat) (type : ValueType) : LocalTable × Bool :=
  let reserved := table.reserve id
  match reserved.type? id with
  | some known => (reserved, known == type)
  | none => (⟨reserved.types.setIfInBounds id (some type)⟩, true)

/-- A new local of the given type. Numbers are words of 32 bits. -/
def fresh (table : LocalTable) (type : ValueType) : Nat × LocalTable :=
  (table.count % twoPow 32, ⟨table.types.push (some type)⟩)

end LocalTable

end GraphJit
