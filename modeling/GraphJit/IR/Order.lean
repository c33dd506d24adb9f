import GraphJit.IR.Graph

/-! # Depth first orders

Blocks reachable from the entry, in the order in which a depth first walk
leaves them. The walk keeps a stack of open blocks, each with the successors it
has still to look at; a finished block goes to the front of the result, so the
walk itself yields the reverse post-order.
-/

namespace GraphJit.Graph

/-- Steps that a stack of open blocks still takes: one for every edge to follow, and
one to leave each block. -/
def openWork : List (Nat × List Nat) → Nat
  | [] => 0
  | (_, targets) :: rest => targets.length + 1 + openWork rest

/-- Walk on from a stack of open blocks. Every step follows an edge, leaves a block, or
visits a block for the first time. -/
def walk (graph : Graph) (visited : Array Bool) (order : List Nat) :
    List (Nat × List Nat) → Except Fault (List Nat)
  | [] => .ok order
  | (b, []) :: rest => walk graph visited (b :: order) rest
  | (b, target :: more) :: rest =>
    if bound : target < visited.size then
      if visited[target] then walk graph visited order ((b, more) :: rest)
      else
        walk graph (visited.set target true) order
          ((target, graph.successors target) :: (b, more) :: rest)
    else .error .indexOutOfRange
termination_by stack => (visited.count false, openWork stack)
decreasing_by
  · refine Prod.Lex.right _ ?_
    rw [openWork]
    omega
  · refine Prod.Lex.right _ ?_
    rw [openWork, openWork, List.length_cons]
    omega
  · rename_i unvisited
    refine Prod.Lex.left _ _ ?_
    have found : visited[target] = false := Bool.eq_false_iff.mpr unvisited
    have present : 0 < visited.count false :=
      Array.count_pos_iff.mpr (Array.mem_of_getElem found)
    rw [Array.count_set, found]
    change visited.count false - 1 + 0 < visited.count false
    omega

/-- Reachable blocks, each before the blocks it leads to unless an edge goes back. -/
def reversePostorder (graph : Graph) : Except Fault (List Nat) :=
  if graph.size = 0 then .ok []
  else
    graph.walk ((Array.replicate graph.size false).setIfInBounds entry true) []
      [(entry, graph.successors entry)]

/-- Reachable blocks in the order in which a depth first walk leaves them. -/
def postorder (graph : Graph) : Except Fault (List Nat) :=
  return (← graph.reversePostorder).reverse

/-- One flag for each block of a graph, set for the listed ones. -/
def marks (graph : Graph) (blocks : List Nat) : Array Bool :=
  blocks.foldl (fun marks b => marks.setIfInBounds b true) (Array.replicate graph.size false)

end GraphJit.Graph
