import GraphJit.Lowering.Function

/-! # Kept code

Code that is long enough is kept with the address of the function it came from,
and can be put into a cache under that address.
-/

namespace GraphJit

/-- Code to be kept for one function. -/
structure SavedCode where
  address : BitVec 64
  code : Option (List UInt8) := none
  /-- How often code was written. -/
  writes : Nat := 0
deriving DecidableEq, Repr

def SavedCode.write (saved : SavedCode) (code : List UInt8) : SavedCode :=
  { saved with code := some code, writes := saved.writes + 1 }

/-- Keep code if it is long enough. -/
def SavedCode.offer (saved : SavedCode) (minLength : Nat) (code : List UInt8) : SavedCode :=
  if minLength ≤ code.length then saved.write code else saved

/-- Code by address, with at most one entry for an address. -/
structure CodeCache where
  entries : List (BitVec 64 × List UInt8) := []
deriving DecidableEq, Repr

namespace CodeCache

def insert (cache : CodeCache) (address : BitVec 64) (code : List UInt8) : CodeCache :=
  ⟨(address, code) :: cache.entries.filter (·.1 ≠ address)⟩

def get? (cache : CodeCache) (address : BitVec 64) : Option (List UInt8) :=
  cache.entries.lookup address

def contains (cache : CodeCache) (address : BitVec 64) : Bool :=
  (cache.get? address).isSome

def size (cache : CodeCache) : Nat :=
  cache.entries.length

/-- Put kept code into the cache; tells whether there was any. -/
def commit (cache : CodeCache) (saved : SavedCode) : CodeCache × Bool :=
  match saved.code with
  | some code => (cache.insert saved.address code, true)
  | none => (cache, false)

end CodeCache

end GraphJit
