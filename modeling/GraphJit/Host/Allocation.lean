import GraphJit.Error
import GraphJit.Host.Convention

/-! # Register allocation

Locals are ranked by how often they occur. The most used ones get a register of
their bank for the whole function, as long as there is one; the others get a
spill slot of eight bytes. No two locals share a home.
-/

namespace GraphJit

/-- The home of a local. -/
inductive Location where
  | register (register : HostRegister)
  /-- Offset into the spill area. -/
  | spill (offset : Nat)
deriving DecidableEq, Repr

structure Allocation where
  locations : Array (Option Location)
  intUsed : Mask
  vecUsed : Mask
  spillSize : Nat
deriving Repr

namespace Allocation

def spillSlotBytes : Nat := 8

/-- The home of a local; a local that never occurs has none. -/
def location? (allocation : Allocation) (id : Nat) : Option Location :=
  allocation.locations[id]?.getD none

def spilledCount (allocation : Allocation) : Nat :=
  allocation.locations.toList.countP fun
    | some (.spill _) => true
    | _ => false

/-- Count an operand if it is a local of the table. The counts are words of 32 bits. -/
def noteUse (counts : Array Nat) (operand : Operand) : Except Fault (Array Nat) :=
  match operand.localId? with
  | some id => do return counts.setIfInBounds id (← wordSize (counts[id]?.getD 0 + 1))
  | none => .ok counts

/-- How often each local of the table occurs. -/
def useCounts (graph : Graph) : Except Fault (Array Nat) :=
  (graph.operations.flatMap Operation.operands).foldlM noteUse
    (Array.replicate graph.locals.count 0)

/-- The locals that occur, most used first, then by number. -/
def ranking (counts : Array Nat) : List Nat :=
  ((List.range counts.size).filter fun id => counts[id]?.getD 0 != 0).mergeSort fun a b =>
    decide (counts[b]?.getD 0 ≤ counts[a]?.getD 0)

/-- Homes given out so far. -/
structure Progress where
  file : RegisterFile
  locations : Array (Option Location)
  spillSize : Nat := 0
deriving Repr

/-- Bank for values of a type. -/
def bankOf (type : ValueType) : Nat :=
  if type.isInteger then HostRegister.gpBank else HostRegister.vecBank

/-- Whether another register of a bank may be handed out. -/
def underLimit (limit : Option Nat) (file : RegisterFile) (bank : Nat) : Bool :=
  match limit with
  | none => true
  | some limit => decide ((file.usage bank).1 < limit)

/-- Give a local the next spill slot. -/
def Progress.spill (progress : Progress) (id : Nat) : Progress :=
  { progress with
    locations := progress.locations.setIfInBounds id (some (.spill progress.spillSize))
    spillSize := progress.spillSize + spillSlotBytes }

/-- Give a local a home. -/
def Progress.place (limit : Option Nat) (progress : Progress) (id : Nat) (type : ValueType) :
    Except CompileError Progress :=
  let bank := bankOf type
  if underLimit limit progress.file bank then
    match progress.file.allocate bank id with
    | .ok (register, file) =>
      .ok { progress with
        file
        locations := progress.locations.setIfInBounds id (some (.register register)) }
    | .error (.noneLeft _) => .ok (progress.spill id)
    | .error cause => .error (.allocation (.refused id cause))
  else .ok (progress.spill id)

/-- Homes for the locals of a graph by how often they occur. -/
def ofCounts (limit : Option Nat) (convention : Convention) (graph : Graph) (counts : Array Nat) :
    Except CompileError Allocation := do
  let start : Progress := {
    file := { allocatable := convention.allocatable graph.hasCalls }
    locations := Array.replicate counts.size none }
  let done ← (ranking counts).foldlM (fun (progress : Progress) id =>
    match graph.locals.type? id with
    | some type => progress.place limit id type
    | none => .error (.allocation (.untyped id))) start
  return {
    locations := done.locations
    intUsed := done.file.owned.gp
    vecUsed := done.file.owned.vec
    spillSize := done.spillSize }

/-- Allocate the locals of a graph with at most `limit` registers of each bank. -/
def greedy (limit : Option Nat) (convention : Convention) (graph : Graph) :
    Outcome Allocation := do
  ofCounts limit convention graph (← useCounts graph)

end Allocation

end GraphJit
