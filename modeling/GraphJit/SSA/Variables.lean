import GraphJit.Error

/-! # Guest registers as variables

The guest registers of a graph in the order in which they first occur, each
with the widest type it is accessed at. A register cannot be both an integer
and a float.
-/

namespace GraphJit

structure GuestVariable where
  register : GuestRegister
  type : ValueType
deriving DecidableEq, Repr

namespace GuestVariable

/-- Account for one access of a register. -/
def note (register : GuestRegister) (type : ValueType) :
    List GuestVariable → Except CompileError (List GuestVariable)
  | [] => .ok [⟨register, type⟩]
  | known :: rest =>
    if known.register = register then
      if known.type.isInteger ≠ type.isInteger then
        .error (.unsupported (.mixedRegister register known.type type))
      else if known.type.size < type.size then .ok (⟨register, type⟩ :: rest)
      else .ok (known :: rest)
    else return known :: (← note register type rest)

/-- Account for one operand. -/
def noteOperand (vars : List GuestVariable) :
    Operand → Except CompileError (List GuestVariable)
  | .register register type => note register type vars
  | _ => .ok vars

/-- The variables of a graph. -/
def collect (graph : Graph) : Except CompileError (List GuestVariable) :=
  (graph.operations.flatMap Operation.operands).foldlM noteOperand []

/-- The variable of a register. -/
def find? (vars : List GuestVariable) (register : GuestRegister) : Option GuestVariable :=
  vars.find? (·.register == register)

end GuestVariable

/-- Clear locals right after the argument loads that the entry block starts with. -/
def Graph.insertZeroInits (graph : Graph) (locals : List (Nat × ValueType)) : Graph :=
  let inits := locals.map fun (id, type) => Operation.copy (.localVar id type) (.zero type)
  let insert (block : Block) : Block :=
    { block with
      operations := block.argumentLoads ++ inits
        ++ block.operations.drop block.argumentLoads.length }
  { graph with blocks := graph.blocks.modify entry insert }

end GraphJit
