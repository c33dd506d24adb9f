import GraphJit.Dominance.Tree
import GraphJit.SSA.Variables

/-! # Placing phis

A variable needs a phi where different definitions meet: in the frontier of a
block that defines it, and again in the frontier of every block that has got a
phi for it.
-/

namespace GraphJit.SSA

/-- Blocks in the tree with an operation that writes the register. -/
def definingBlocks (graph : Graph) (tree : DominatorTree) (register : GuestRegister) :
    List Nat :=
  (graph.blocks.toList.filter fun block =>
    tree.isReachable block.index && block.operations.any fun op =>
      op.destination.bind Operand.register? == some register).map (·.index)

/-- Add the frontiers of the blocks in the worklist, and then those of the blocks added. -/
def closeUnder (frontier : Nat → List Nat) : Nat → List Nat → List Nat → List Nat
  | 0, _, found => found
  | _, [], found => found
  | fuel + 1, b :: work, found =>
    let added := (frontier b).filter fun join => !found.contains join
    closeUnder frontier fuel (added ++ work) (found ++ added)

/-- The frontier of a block as annotated; a block that does not exist has none. -/
def frontierOf (graph : Graph) (b : Nat) : List Nat :=
  match graph.blocks[b]? with
  | some block => block.frontier
  | none => []

/-- Blocks that need a phi for a register. Every block enters the worklist at most once
as a definition and once as a join. -/
def phiBlocks (graph : Graph) (tree : DominatorTree) (register : GuestRegister) : List Nat :=
  let definitions := definingBlocks graph tree register
  closeUnder (frontierOf graph) (definitions.length + graph.size) definitions []

/-- A phi of a variable with one input for each predecessor entry. -/
def emptyPhi (var : GuestVariable) (predecessors : List Nat) : Operation :=
  let value := Operand.register var.register var.type
  .phi value (predecessors.map fun p => (p, value))

/-- Put the phis of one variable at the head of its blocks. -/
def placePhis (tree : DominatorTree) (graph : Graph) (var : GuestVariable) : Graph :=
  let insert (block : Block) : Block :=
    { block with operations := emptyPhi var block.predecessors :: block.operations }
  { graph with
    blocks := (phiBlocks graph tree var.register).foldl
      (fun blocks b => blocks.modify b insert) graph.blocks }

/-- Put the phis of all variables in place, and count them. -/
def insertPhis (graph : Graph) (vars : List GuestVariable) (tree : DominatorTree) : Graph × Nat :=
  vars.foldl (fun placed var => (placePhis tree placed.1 var,
    placed.2 + (phiBlocks placed.1 tree var.register).length)) (graph, 0)

end GraphJit.SSA
