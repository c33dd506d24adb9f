import GraphJit.IR.Block
import GraphJit.IR.Locals

/-! # Control flow graphs

A graph owns its blocks, addressed by position with the entry first, and the
table of its local variables.
-/

namespace GraphJit

structure Graph where
  blocks : Array Block := #[]
  locals : LocalTable := {}
deriving DecidableEq, Repr

namespace Graph

/-- Position of the entry block. -/
def entry : Nat := 0

def size (graph : Graph) : Nat :=
  graph.blocks.size

/-- The operations of all blocks in order. -/
def operations (graph : Graph) : List Operation :=
  graph.blocks.toList.flatMap (·.operations)

def block (graph : Graph) (b : Nat) : Except Fault Block :=
  match graph.blocks[b]? with
  | some block => .ok block
  | none => .error .indexOutOfRange

/-- Successors of a block; a block that does not exist has none. -/
def successors (graph : Graph) (b : Nat) : List Nat :=
  match graph.blocks[b]? with
  | some block => block.successors
  | none => []

/-- Predecessors of a block; a block that does not exist has none. -/
def predecessors (graph : Graph) (b : Nat) : List Nat :=
  match graph.blocks[b]? with
  | some block => block.predecessors
  | none => []

def modify (graph : Graph) (b : Nat) (change : Block → Block) : Except Fault Graph :=
  if b < graph.size then .ok { graph with blocks := graph.blocks.modify b change }
  else .error .indexOutOfRange

/-- Append an empty block. -/
def addBlock (graph : Graph) : Graph :=
  { graph with blocks := graph.blocks.push { index := graph.size } }

/-- Add a successor slot without the matching predecessor. -/
def addSuccessor (graph : Graph) (source target : Nat) : Except Fault Graph :=
  graph.modify source fun block => { block with successors := block.successors ++ [target] }

/-- Add an edge as the next successor slot of its source. -/
def addEdge (graph : Graph) (source target : Nat) : Except Fault Graph := do
  let graph ← graph.addSuccessor source target
  graph.modify target fun block => { block with predecessors := block.predecessors ++ [source] }

def push (graph : Graph) (b : Nat) (op : Operation) : Except Fault Graph :=
  graph.modify b fun block => block.push op

/-- A new local variable, as an operand of its own type. -/
def newLocal (graph : Graph) (type : ValueType) : Operand × Graph :=
  let (id, locals) := graph.locals.fresh type
  (.localVar id type, { graph with locals })

def hasCalls (graph : Graph) : Bool :=
  graph.operations.any (·.instruction == .call)

/-- Largest argument count of a call, if there is a call. -/
def maxCallArguments? (graph : Graph) : Option Nat :=
  ((graph.operations.filter (·.instruction == .call)).map (·.sources.length - 1)).max?

/-- Put a new block on the first edge from `source` to `target`. The block comes last
in the graph and branches on. Phi inputs from `source` now come from it. -/
def splitEdge (graph : Graph) (source target : Nat) : Except Fault Graph := do
  let middle := graph.size
  let graph ← graph.addBlock.modify source fun block =>
    { block with successors := block.successors.replace target middle }
  let graph ← graph.modify target fun block =>
    { block with
      predecessors := block.predecessors.replace source middle
      operations := block.operations.map fun op =>
        if op.isPhi then { op with labels := op.labels.replace source middle } else op }
  graph.modify middle fun block =>
    { block with
      successors := block.successors ++ [target]
      predecessors := block.predecessors ++ [source]
      operations := block.operations ++ [.branch] }

end Graph

end GraphJit
