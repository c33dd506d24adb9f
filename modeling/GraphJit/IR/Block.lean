import GraphJit.IR.Operation

/-! # Basic blocks -/

namespace GraphJit

/-- A block: its operations, its edges, and what the dominance analysis found out. -/
structure Block where
  index : Nat
  operations : List Operation := []
  /-- Slot 0 is where control goes on, slot 1 where a taken branch goes. -/
  successors : List Nat := []
  predecessors : List Nat := []
  /-- None for the entry block and for unreachable blocks. -/
  immediateDominator : Option Nat := none
  frontier : List Nat := []
deriving DecidableEq, Repr

namespace Block

def next? (block : Block) : Option Nat :=
  block.successors[0]?

def taken? (block : Block) : Option Nat :=
  block.successors[1]?

/-- The last operation, if it ends the block. -/
def terminator? (block : Block) : Option Operation :=
  block.operations.getLast?.filter (·.instruction.isTerminator)

/-- Where to put operations that must run before the block is left. -/
def insertionPoint (block : Block) : Nat :=
  if block.terminator?.isSome then block.operations.length - 1 else block.operations.length

/-- The argument loads that the block starts with. -/
def argumentLoads (block : Block) : List Operation :=
  block.operations.takeWhile (·.instruction.isLoadArgument)

def push (block : Block) (op : Operation) : Block :=
  { block with operations := block.operations ++ [op] }

def hasPhi (block : Block) : Bool :=
  block.operations.any Operation.isPhi

end Block

end GraphJit
