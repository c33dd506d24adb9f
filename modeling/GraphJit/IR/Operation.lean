import GraphJit.IR.Instruction
import GraphJit.IR.Operand

/-! # Operations

An operation applies an instruction to sources and may write a destination.
A phi also names, for each source, the predecessor block it comes from.
-/

namespace GraphJit

structure Operation where
  instruction : Instruction
  destination : Option Operand := none
  sources : List Operand := []
  /-- Predecessor block of each source; used by phis only. -/
  labels : List Nat := []
deriving DecidableEq, Repr

namespace Operation

/-- A phi from its inputs, each a predecessor block and a value. -/
def phi (destination : Operand) (inputs : List (Nat × Operand)) : Operation where
  instruction := .phi
  destination := some destination
  sources := inputs.map Prod.snd
  labels := inputs.map Prod.fst

def copy (destination source : Operand) : Operation where
  instruction := .copy
  destination := some destination
  sources := [source]

/-- An operation that writes what it computes. -/
def compute (instruction : Instruction) (destination : Operand) (sources : List Operand) :
    Operation where
  instruction
  destination := some destination
  sources

def branch : Operation where
  instruction := .branch

def branchIf (comparison : Comparison) (a b : Operand) : Operation where
  instruction := .branchIf comparison
  sources := [a, b]

def ret (value : Operand) : Operation where
  instruction := .ret
  sources := [value]

def isPhi (op : Operation) : Bool :=
  op.instruction == .phi

/-- The inputs of a phi. -/
def inputs (op : Operation) : List (Nat × Operand) :=
  op.labels.zip op.sources

/-- All operands, the destination first. -/
def operands (op : Operation) : List Operand :=
  op.destination.toList ++ op.sources

end Operation

end GraphJit
