import GraphJit.SSA.Variables

/-! # One local for each guest register

Without static single assignment form every guest register becomes one local
for the whole function. It is cleared in the entry block, unless the argument
loads there already write it.
-/

namespace GraphJit

/-- A fresh local for every variable, in order. -/
def GuestVariable.assign (locals : LocalTable) :
    List GuestVariable → List (GuestVariable × Nat) × LocalTable
  | [] => ([], locals)
  | var :: rest =>
    let (id, locals) := locals.fresh var.type
    let (assigned, locals) := assign locals rest
    ((var, id) :: assigned, locals)

/-- The local of a register, accessed at the same type. -/
def Operand.renameRegister (assigned : List (GuestVariable × Nat)) : Operand → Operand
  | .register guest type =>
    match assigned.find? (·.1.register == guest) with
    | some entry => .localVar entry.2 type
    | none => .register guest type
  | operand => operand

def Operation.renameRegisters (assigned : List (GuestVariable × Nat)) (op : Operation) :
    Operation :=
  { op with
    destination := op.destination.map (Operand.renameRegister assigned)
    sources := op.sources.map (Operand.renameRegister assigned) }

/-- Locals written by the argument loads that the entry block starts with. -/
def Graph.argumentLocals (graph : Graph) : List Nat :=
  match graph.blocks[entry]? with
  | some block =>
    block.argumentLoads.filterMap fun op => op.destination.bind Operand.localId?
  | none => []

/-- Replace every guest register by its local. -/
def Graph.renameRegisters (graph : Graph) : Except CompileError Graph := do
  let vars ← GuestVariable.collect graph
  if vars.isEmpty then return graph
  let (assigned, locals) := GuestVariable.assign graph.locals vars
  let blocks := graph.blocks.map fun block =>
    { block with operations := block.operations.map (Operation.renameRegisters assigned) }
  let graph : Graph := { blocks, locals }
  let cleared := assigned.filter fun entry => !graph.argumentLocals.contains entry.2
  return graph.insertZeroInits (cleared.map fun entry => (entry.2, entry.1.type))

end GraphJit
