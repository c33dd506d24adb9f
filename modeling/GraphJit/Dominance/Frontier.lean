import GraphJit.Dominance.Immediate

/-! # Dominance frontiers

The frontier of a block holds the joins where its dominance ends: blocks with a
predecessor that it dominates, but which it does not dominate strictly.
-/

namespace GraphJit.Dominance

/-- The blocks from `b` up the dominator tree, as far as the one below `stop`. -/
def climb (idoms : Idoms) (stop : Nat) : Nat → Nat → List Nat
  | 0, _ => []
  | fuel + 1, b =>
    if b = stop then []
    else
      match idoms.get b with
      | none => []
      | some up => if up = b then [b] else b :: climb idoms stop fuel up

/-- The blocks that have the given block in their frontier. Only joins are in any. -/
def frontierOwners (idoms : Idoms) (block : Block) : List Nat :=
  match idoms.get block.index with
  | none => []
  | some stop =>
    if block.predecessors.length < 2 then []
    else block.predecessors.flatMap (climb idoms stop idoms.size)

/-- The frontier of every block, in ascending order. -/
def frontiers (graph : Graph) (idoms : Idoms) : List (List Nat) :=
  let owners := graph.blocks.toList.map fun block => (block.index, frontierOwners idoms block)
  (List.range graph.size).map fun b =>
    (owners.filter fun join => join.2.contains b).map Prod.fst

/-- Annotate every block with its immediate dominator and its frontier. -/
def analyze (graph : Graph) : Except Fault Graph := do
  let idoms ← idoms graph
  let annotate (block : Block) (frontier : List Nat) : Block :=
    { block with
      immediateDominator := if block.index = Graph.entry then none else idoms.get block.index
      frontier }
  let blocks := graph.blocks.toList.zipWith annotate (frontiers graph idoms)
  return { graph with blocks := blocks.toArray }

end GraphJit.Dominance
