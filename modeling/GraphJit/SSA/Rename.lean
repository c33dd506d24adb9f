import GraphJit.SSA.Phi

/-! # Static single assignment form

Every definition of a guest register becomes a local of its own. A use reads
the local of the definition that reaches it down the dominator tree, and a
phi input the one that reaches the end of the predecessor. A variable read
before any definition reads a local that the entry block clears.
-/

namespace GraphJit.SSA

/-- The local that holds each register, the latest definition first. -/
abbrev Scope := List (GuestRegister × Nat)

structure Renaming where
  graph : Graph
  /-- Locals that stand for registers read before any definition. -/
  zeros : Scope := []
  /-- Scope at the end of each block in the tree. -/
  scopes : Array Scope
deriving Repr

abbrev Rename := StateT Renaming (Except Fault)

/-- A fresh local for a variable. -/
def freshLocal (var : GuestVariable) : Rename Nat := fun state =>
  let (id, locals) := state.graph.locals.fresh var.type
  .ok (id, { state with graph := { state.graph with locals } })

/-- The cleared local of a variable, made when it is first needed. -/
def zeroLocal (var : GuestVariable) : Rename Nat := do
  match (← get).zeros.lookup var.register with
  | some id => return id
  | none =>
    let id ← freshLocal var
    modify fun state => { state with zeros := (var.register, id) :: state.zeros }
    return id

variable (vars : List GuestVariable)

/-- Read the local that holds a register, at the type of the access. -/
def renameUse (scope : Scope) (operand : Operand) : Rename Operand := do
  match operand with
  | .register register type =>
    match GuestVariable.find? vars register with
    | none => return operand
    | some var =>
      match scope.lookup register with
      | some id => return .localVar id type
      | none => return .localVar (← zeroLocal var) type
  | _ => return operand

/-- Give a defined register a fresh local, and bring it into scope. -/
def renameDefinition (scope : Scope) (operand : Operand) : Rename (Operand × Scope) := do
  match operand with
  | .register register type =>
    match GuestVariable.find? vars register with
    | none => return (operand, scope)
    | some var =>
      let id ← freshLocal var
      return (.localVar id type, (register, id) :: scope)
  | _ => return (operand, scope)

/-- Rename an operation, its sources first. The inputs of a phi are not read in its own
block. -/
def renameOperation (readsInputs : Bool) (scope : Scope) (op : Operation) :
    Rename (Operation × Scope) := do
  let sources ←
    if op.isPhi && !readsInputs then pure op.sources
    else op.sources.mapM (renameUse vars scope)
  match op.destination with
  | none => return ({ op with sources }, scope)
  | some operand =>
    let (destination, scope) ← renameDefinition vars scope operand
    return ({ op with sources, destination := some destination }, scope)

def renameOperations (readsInputs : Bool) :
    Scope → List Operation → Rename (List Operation × Scope)
  | scope, [] => return ([], scope)
  | scope, op :: rest => do
      let (op, scope) ← renameOperation vars readsInputs scope op
      let (rest, scope) ← renameOperations readsInputs scope rest
      return (op :: rest, scope)

/-- Rename the phi inputs labelled with block `b`. -/
def renameInputs (scope : Scope) (b : Nat) : List Nat → List Operand → Rename (List Operand)
  | [], sources => return sources
  | label :: labels, [] => do
      if label = b then throw .indexOutOfRange
      renameInputs scope b labels []
  | label :: labels, source :: sources => do
      let source ← if label = b then renameUse vars scope source else pure source
      return source :: (← renameInputs scope b labels sources)

/-- Rename the inputs that block `b` feeds to one operation. -/
def feedOperation (scope : Scope) (b : Nat) (op : Operation) : Rename Operation := do
  if op.isPhi then
    return { op with sources := ← renameInputs vars scope b op.labels op.sources }
  else return op

def setOperations (b : Nat) (operations : List Operation) : Rename Unit := do
  let graph ← (← get).graph.modify b fun block => { block with operations }
  modify fun state => { state with graph }

/-- Rename the inputs that block `b` feeds to the phis of a successor. -/
def feedSuccessor (scope : Scope) (b successor : Nat) : Rename Unit := do
  let block ← (← get).graph.block successor
  setOperations successor (← block.operations.mapM (feedOperation vars scope b))

/-- Rename a block of the tree, and the phi inputs that it feeds. -/
def renameBlock (tree : DominatorTree) (b : Nat) : Rename Unit := do
  let block ← (← get).graph.block b
  let scopes := (← get).scopes
  let scope := ((tree.parent? b).bind fun parent => scopes[parent]?).getD []
  let (operations, scope) ← renameOperations vars false scope block.operations
  setOperations b operations
  block.successors.forM (feedSuccessor vars scope b)
  modify fun state => { state with scopes := state.scopes.setIfInBounds b scope }

/-- Rename a block outside the tree, which only sees its own definitions. -/
def renameUnreachable (b : Nat) : Rename Unit := do
  let block ← (← get).graph.block b
  let (operations, _) ← renameOperations vars true [] block.operations
  setOperations b operations

/-- Rename all blocks, those of the tree from the root down. -/
def renameGraph (tree : DominatorTree) : Rename Unit := do
  tree.preorder.forM (renameBlock vars tree)
  ((List.range tree.parents.size).filter fun b => !tree.isReachable b).forM
    (renameUnreachable vars)

/-- Bring an analysed graph into static single assignment form. A graph without guest
registers stays as it is. -/
def construct (graph : Graph) : Outcome Graph := do
  let vars ← GuestVariable.collect graph
  if vars.isEmpty then return graph
  let tree := DominatorTree.ofGraph graph
  let graph := (insertPhis graph vars tree).1
  let ((), renamed) ← (renameGraph vars tree).run
    { graph, scopes := Array.replicate graph.size [] }
  let cleared := vars.filterMap fun var =>
    (renamed.zeros.lookup var.register).map fun id => (id, var.type)
  return renamed.graph.insertZeroInits cleared

end GraphJit.SSA
