import GraphJit.IR.Graph

/-! # Removing phis

Each phi gets a temporary local: every predecessor copies its input into the
temporary before it leaves, and the phi becomes a copy from it. The phis of a
block thus still read all their inputs before any of them is written. An edge
from a block with several successors is split first, so that the copies run on
that edge alone.
-/

namespace GraphJit.SSA

/-- Split the edges into `b` that come from blocks with several successors. -/
def splitCritical (b : Nat) : Graph → List Nat → Except Fault (Graph × Nat)
  | graph, [] => return (graph, 0)
  | graph, p :: rest => do
      if 1 < (← graph.block p).successors.length then
        let (graph, count) ← splitCritical b (← graph.splitEdge p b) rest
        return (graph, count + 1)
      else splitCritical b graph rest

/-- Copy a value into a temporary before the block is left. -/
def copyAtEnd (temporary : Operand) (graph : Graph) (input : Nat × Operand) :
    Except Fault Graph :=
  graph.modify input.1 fun block =>
    { block with
      operations := block.operations.insertIdx block.insertionPoint (.copy temporary input.2) }

/-- Turn the phi at a position of block `b` into a copy from a temporary. -/
def lowerPhi (b position : Nat) (graph : Graph) (phi : Operation) : Except Fault Graph := do
  match phi.destination with
  | none => return graph
  | some destination =>
    let (temporary, graph) := graph.newLocal destination.type
    let graph ← graph.modify b fun block =>
      { block with operations := block.operations.set position (.copy destination temporary) }
    phi.inputs.foldlM (copyAtEnd temporary) graph

/-- Remove the phis of one block. -/
def lowerBlock (graph : Graph) (b : Nat) : Except Fault (Graph × Nat) := do
  let block ← graph.block b
  if !block.hasPhi then return (graph, 0)
  let (graph, count) ←
    if 1 < block.predecessors.length then splitCritical b graph block.predecessors
    else pure (graph, 0)
  let phis := (← graph.block b).operations.zipIdx.filter fun (op, _) => op.isPhi
  let graph ← phis.foldlM (fun graph (phi, position) => lowerPhi b position graph phi) graph
  return (graph, count)

/-- Remove all phis, and count the edges that were split. -/
def deconstruct (graph : Graph) : Except Fault (Graph × Nat) :=
  (List.range graph.size).foldlM (fun (graph, total) b => do
    let (graph, count) ← lowerBlock graph b
    return (graph, total + count)) (graph, 0)

end GraphJit.SSA
