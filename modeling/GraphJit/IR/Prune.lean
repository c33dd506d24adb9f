import GraphJit.IR.Order

/-! # Dropping unreachable blocks

The blocks reachable from the entry are kept in their order and numbered anew.
Edges and phi inputs that come from a dropped block are dropped with it.
-/

namespace GraphJit.Graph

/-- New numbers of the kept blocks, counting from `next`. -/
def renumber (next : Nat) : List Bool → List (Option Nat)
  | [] => []
  | true :: rest => some next :: renumber (next + 1) rest
  | false :: rest => none :: renumber next rest

/-- The new number of a block, or none if it is dropped. -/
def newIndex (numbers : Array (Option Nat)) (b : Nat) : Except Fault (Option Nat) :=
  match numbers[b]? with
  | some number => .ok number
  | none => .error .indexOutOfRange

/-- The new numbers of those listed blocks that are kept. -/
def keepBlocks (numbers : Array (Option Nat)) (blocks : List Nat) : Except Fault (List Nat) :=
  return (← blocks.mapM (newIndex numbers)).reduceOption

/-- The phi inputs that come from kept blocks. -/
def keepInputs (numbers : Array (Option Nat)) (op : Operation) : Except Fault Operation := do
  if op.isPhi then
    let inputs ← op.inputs.mapM fun input =>
      return (← newIndex numbers input.1).map fun label => (label, input.2)
    let inputs := inputs.reduceOption
    return { op with labels := inputs.map Prod.fst, sources := inputs.map Prod.snd }
  else return op

/-- A kept block under its new number. What the dominance analysis said is forgotten. -/
def keepBlock (numbers : Array (Option Nat)) (block : Block) (index : Nat) :
    Except Fault Block := do
  return {
    index
    operations := ← block.operations.mapM (keepInputs numbers)
    successors := ← keepBlocks numbers block.successors
    predecessors := ← keepBlocks numbers block.predecessors }

/-- Drop the blocks that cannot be reached, and count them. If there are none the
graph stays as it is. -/
def removeUnreachable (graph : Graph) : Except Fault (Graph × Nat) := do
  let reachable := graph.marks (← graph.postorder)
  let removed := reachable.count false
  if removed = 0 then return (graph, 0)
  let numbers := (renumber 0 reachable.toList).toArray
  let blocks ← graph.blocks.toList.mapM fun block => do
    match ← newIndex numbers block.index with
    | some index => return some (← keepBlock numbers block index)
    | none => return none
  return ({ graph with blocks := blocks.reduceOption.toArray }, removed)

end GraphJit.Graph
