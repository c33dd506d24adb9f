import GraphJit.Dominance.Tree
import GraphJit.Error

/-! # Checking static single assignment form

Every local has one definition, and every use lies below it in the dominator
tree. A phi input is used at the end of the predecessor it comes from.
-/

namespace GraphJit.SSA

/-- Where each local is defined: its block and the position there. -/
abbrev Definitions := List (Nat × Nat × Nat)

def violation {α : Type} (cause : SsaViolation) : Outcome α :=
  .error (.error (.ssaViolation cause))

/-- Record the definition that an operation makes. -/
def noteDefinition (b : Nat) (definitions : Definitions) (op : Operation) (position : Nat) :
    Outcome Definitions := do
  match op.destination with
  | some (.register register _) => violation (.registerDefined register.index b)
  | some (.localVar id _) =>
    if (definitions.lookup id).isSome then violation (.redefined id)
    return (id, b, position) :: definitions
  | _ => return definitions

/-- The definitions of all blocks, in the tree or not. -/
def noteDefinitions (graph : Graph) : Outcome Definitions :=
  graph.blocks.toList.foldlM (fun definitions block =>
    block.operations.zipIdx.foldlM (fun definitions (op, position) =>
      noteDefinition block.index definitions op position) definitions) []

/-- Whether a definition reaches the `k`-th source of an operation. -/
def reaches (tree : DominatorTree) (b position : Nat) (op : Operation) (k : Nat)
    (definition : Nat × Nat) : Except Fault Bool :=
  if op.isPhi then
    match op.labels[k]? with
    | none => .error .indexOutOfRange
    | some label =>
      match tree.enter[label]? with
      | none => .error .indexOutOfRange
      | some entered => .ok (!entered.isSome || tree.dominates definition.1 label)
  else if definition.1 = b then .ok (definition.2 < position)
  else .ok (tree.dominates definition.1 b)

def checkSource (tree : DominatorTree) (definitions : Definitions) (b position : Nat)
    (op : Operation) (source : Operand) (k : Nat) : Outcome Unit := do
  match source with
  | .register _ _ => violation (.registerUsed b)
  | .localVar id _ =>
    match definitions.lookup id with
    | none => violation (.neverDefined id b)
    | some definition =>
      if !(← reaches tree b position op k definition) then
        violation (.notDominated id b definition.1)
  | .constant _ _ => return ()

def checkOperation (tree : DominatorTree) (definitions : Definitions) (block : Block)
    (op : Operation) (position : Nat) : Outcome Unit := do
  if op.isPhi && op.labels.length != block.predecessors.length then
    violation (.inputCount block.index op.labels.length block.predecessors.length)
  op.sources.zipIdx.forM fun (source, k) =>
    checkSource tree definitions block.index position op source k

/-- Check a whole graph. Blocks outside the tree only have their definitions checked. -/
def verify (graph : Graph) : Outcome Unit := do
  let tree := DominatorTree.ofGraph graph
  let definitions ← noteDefinitions graph
  (graph.blocks.toList.filter fun block => tree.isReachable block.index).forM fun block =>
    block.operations.zipIdx.forM fun (op, position) =>
      checkOperation tree definitions block op position

end GraphJit.SSA
