import GraphJit.Error
import GraphJit.IR.Order

/-! # Well-formed graphs

The checks that a graph has to pass before it is compiled: edges, operand
shapes, argument loads, return types, and the end of each block.
-/

namespace GraphJit.Validate

/-- Types of a function's arguments and result. -/
structure Signature where
  arguments : List ValueType
  result : Option ValueType
deriving DecidableEq, Repr

def edges (graph : Graph) (block : Block) : Outcome Unit := do
  if block.successors.length > 2 then
    unsupported (.tooManySuccessors block.index block.successors.length)
  else
    match block.successors.find? (graph.size ≤ ·) with
    | some target => unsupported (.missingTarget block.index target)
    | none => return ()

/-- Operand counts, and a destination that can be written. -/
def shape (block : Block) (op : Operation) : Outcome Unit := do
  match op.instruction.shape? with
  | some (writes, sources) =>
    if op.destination.isSome ≠ writes ∨ op.sources.length ≠ sources then
      unsupported (.malformed block.index op)
  | none => pure ()
  match op.destination with
  | some (.constant ..) => unsupported (.writesConstant block.index op)
  | _ => return ()

/-- An argument is loaded at the start of the entry block, into the right class. -/
def argumentLoad (signature : Signature) (block : Block) (loading : Bool) (op : Operation)
    (index : Nat) : Outcome Unit :=
  if loading then
    match signature.arguments[index]? with
    | none => unsupported (.missingArgument op signature.arguments.length)
    | some type =>
      if op.destination.map (·.type.isFloat) = some type.isFloat then .ok ()
      else unsupported (.argumentMismatch op type)
  else unsupported (.lateArgument block.index op)

/-- The conditions of single instructions. -/
def particular (signature : Signature) (block : Block) (loading : Bool) (op : Operation) :
    Outcome Unit :=
  match op.instruction with
  | .loadArgument index => argumentLoad signature block loading op index
  | .call =>
    if op.sources.isEmpty then unsupported (.callWithoutTarget block.index) else .ok ()
  | .phi =>
    if op.destination = none ∨ op.sources.length ≠ op.labels.length then
      unsupported (.malformed block.index op)
    else .ok ()
  | .ret =>
    let returned := op.sources.head?.map (·.type.isFloat)
    if op.sources.length > 1 ∨ returned ≠ signature.result.map ValueType.isFloat then
      unsupported (.returnMismatch block.index op)
    else .ok ()
  | .branch =>
    if block.successors.isEmpty then unsupported (.branchWithoutSuccessor block.index)
    else .ok ()
  | .branchIf _ =>
    if block.successors.length ≠ 2 then unsupported (.conditionalSuccessors block.index)
    else .ok ()
  | _ => .ok ()

/-- Check operations in order; `loading` holds as long as only arguments were loaded. -/
def operations (signature : Signature) (block : Block) : Bool → List Operation → Outcome Unit
  | _, [] => .ok ()
  | loading, op :: rest => do
      if op.instruction.isTerminator && !rest.isEmpty then
        unsupported (.misplacedTerminator block.index op)
      shape block op
      particular signature block loading op
      operations signature block (loading && op.instruction.isLoadArgument) rest

/-- A block goes on somewhere, unless it returns. -/
def ending (block : Block) : Outcome Unit :=
  match block.terminator? with
  | none => if block.successors.isEmpty then unsupported (.openEnded block.index) else .ok ()
  | some op =>
    if op.instruction = .ret ∧ !block.successors.isEmpty then
      unsupported (.returnWithSuccessors block.index)
    else .ok ()

def block (graph : Graph) (signature : Signature) (block : Block) : Outcome Unit := do
  edges graph block
  operations signature block (block.index = Graph.entry) block.operations
  ending block

/-- No reachable block goes back to the entry block. -/
def entry (graph : Graph) : Outcome Unit := do
  let reachable ← graph.postorder
  if (graph.predecessors Graph.entry).any (reachable.contains ·) then unsupported .entryHasPredecessors
  else return ()

end Validate

/-- Check that a graph is well formed. -/
def Graph.validate (graph : Graph) (signature : Validate.Signature) : Outcome Unit := do
  if graph.size = 0 then unsupported .noBlocks
  else
    graph.blocks.toList.forM (Validate.block graph signature)
    Validate.entry graph

end GraphJit
