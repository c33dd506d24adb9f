import GraphJit.IR.Graph

/-! # The dominator tree

A view of the immediate dominators that the blocks are annotated with. A walk around
the tree notes when each block is entered and when it is left. A block dominates those
that are entered and left in between.
-/

namespace GraphJit

structure DominatorTree where
  /-- Immediate dominator of each block. -/
  parents : Array (Option Nat)
  /-- Blocks immediately dominated by each block. -/
  childLists : Array (List Nat)
  /-- When each block is entered; never, if it is not in the tree. -/
  enter : Array (Option Nat)
  /-- When each block is left. -/
  exit : Array (Option Nat)
deriving Repr

namespace DominatorTree

/-- Blocks immediately dominated by `b`, in ascending order. -/
def childrenOf (blocks : List Block) (b : Nat) : List Nat :=
  (blocks.filter fun block => block.immediateDominator == some b).map (·.index)

/-- How far the walk around a tree has got. -/
structure Walk where
  clock : Nat
  /-- Blocks entered and not left, each with the number of its children entered. -/
  stack : List (Nat × Nat)
  enter : Array (Option Nat)
  exit : Array (Option Nat)

/-- Enter the next child of the block on top, or leave the block. -/
def Walk.step? (children : Nat → List Nat) (walk : Walk) : Option Walk :=
  match walk.stack with
  | [] => none
  | (b, next) :: rest =>
    match (children b)[next]? with
    | some child =>
      some { walk with
        clock := walk.clock + 1
        stack := (child, 0) :: (b, next + 1) :: rest
        enter := walk.enter.setIfInBounds child (some walk.clock) }
    | none =>
      some { walk with
        clock := walk.clock + 1
        stack := rest
        exit := walk.exit.setIfInBounds b (some walk.clock) }

/-- Walk until all blocks are left. -/
def Walk.run (children : Nat → List Nat) : Nat → Walk → Walk
  | 0, walk => walk
  | fuel + 1, walk =>
    match walk.step? children with
    | some next => run children fuel next
    | none => walk

/-- The tree given by the annotations of a graph. Every block has one parent, so it is entered
and left once at most. -/
def ofGraph (graph : Graph) : DominatorTree :=
  let childLists := ((List.range graph.size).map (childrenOf graph.blocks.toList)).toArray
  let never : Array (Option Nat) := Array.replicate graph.size none
  let walk := Walk.run (childLists[·]?.getD []) (2 * graph.size) {
    clock := 1
    stack := [(Graph.entry, 0)]
    enter := never.setIfInBounds Graph.entry (some 0)
    exit := never }
  { parents := graph.blocks.map (·.immediateDominator)
    childLists
    enter := walk.enter
    exit := walk.exit }

def children (tree : DominatorTree) (b : Nat) : List Nat :=
  tree.childLists[b]?.getD []

/-- Blocks below the listed ones, the first of them with its whole subtree first. -/
def descend (children : Nat → List Nat) : Nat → List Nat → List Nat
  | 0, _ => []
  | _, [] => []
  | fuel + 1, b :: rest => b :: descend children fuel (children b ++ rest)

/-- Blocks in the tree, each before those below it. -/
def preorder (tree : DominatorTree) : List Nat :=
  descend tree.children tree.childLists.size [Graph.entry]

def parent? (tree : DominatorTree) (b : Nat) : Option Nat :=
  tree.parents[b]?.getD none

/-- When a block was entered, if it was. -/
def entered? (tree : DominatorTree) (b : Nat) : Option Nat :=
  tree.enter[b]?.getD none

def left? (tree : DominatorTree) (b : Nat) : Option Nat :=
  tree.exit[b]?.getD none

def isReachable (tree : DominatorTree) (b : Nat) : Bool :=
  (tree.entered? b).isSome

/-- Whether every path from the entry to `b` passes through `a`. -/
def dominates (tree : DominatorTree) (a b : Nat) : Bool :=
  tree.isReachable a && tree.isReachable b &&
    (tree.entered? a).getD 0 ≤ (tree.entered? b).getD 0 &&
    (tree.left? b).getD 0 ≤ (tree.left? a).getD 0

end DominatorTree

end GraphJit
