import GraphJit.IR.Order

/-! # Immediate dominators

A block dominates another if every path from the entry to the latter passes
through it. The candidates are refined over the reverse post-order until
nothing changes: the immediate dominator of a block is the nearest common
ancestor of its predecessors in the tree found so far.
-/

namespace GraphJit.Dominance

/-- Immediate dominators by block. The entry is its own; a block without one is
unreachable or not yet reached. -/
abbrev Idoms := Array (Option Nat)

def Idoms.get (idoms : Idoms) (b : Nat) : Option Nat :=
  idoms[b]?.getD none

/-- Position of every block in an order; blocks that are not in it come last. -/
def ranks (size : Nat) (order : List Nat) : Array Nat :=
  order.zipIdx.foldl (fun ranks (b, rank) => ranks.setIfInBounds b rank) (Array.replicate size size)

def rank (ranks : Array Nat) (b : Nat) : Nat :=
  ranks[b]?.getD ranks.size

/-- Nearest common ancestor: the block of higher rank moves to its immediate
dominator until both are the same. -/
def meet (ranks : Array Nat) (idoms : Idoms) : Nat → Nat → Nat → Nat
  | 0, a, _ => a
  | fuel + 1, a, b =>
    if rank ranks b < rank ranks a then meet ranks idoms fuel ((idoms.get a).getD a) b
    else if rank ranks a < rank ranks b then meet ranks idoms fuel a ((idoms.get b).getD b)
    else a

/-- The candidate for a block from those predecessors that have been reached. -/
def candidate? (ranks : Array Nat) (idoms : Idoms) (predecessors : List Nat) : Option Nat :=
  match predecessors.filter (fun p => (idoms.get p).isSome) with
  | [] => none
  | first :: rest =>
    some ((rest.filter (· != first)).foldl
      (fun found p => meet ranks idoms (2 * ranks.size) found p) first)

/-- Refine one block; the flag says whether anything changed. -/
def refineBlock (graph : Graph) (ranks : Array Nat) (state : Idoms × Bool) (b : Nat) :
    Idoms × Bool :=
  match candidate? ranks state.1 (graph.predecessors b) with
  | none => state
  | some found =>
    if state.1.get b = some found then state
    else (state.1.setIfInBounds b (some found), true)

/-- Refine the blocks in order until a pass changes nothing. -/
def refine (graph : Graph) (ranks : Array Nat) (blocks : List Nat) : Nat → Idoms → Idoms
  | 0, idoms => idoms
  | fuel + 1, idoms =>
    let (next, changed) := blocks.foldl (refineBlock graph ranks) (idoms, false)
    if changed then refine graph ranks blocks fuel next else next

/-- Immediate dominators of all reachable blocks. Every pass but the last moves some
block closer to the entry, which bounds the number of passes. -/
def idoms (graph : Graph) : Except Fault Idoms := do
  let none := Array.replicate graph.size Option.none
  match ← graph.reversePostorder with
  | [] => return none
  | entry :: rest =>
    let ranks := ranks graph.size (entry :: rest)
    return refine graph ranks rest (graph.size * graph.size + 2)
      (none.setIfInBounds entry (some entry))

end GraphJit.Dominance
