import GraphJit.Lowering.Access
import GraphJit.Lowering.Arithmetic

/-! # Memory, calls and control flow -/

namespace GraphJit.Lowering

open X64 Code
open HostRegister (rax rcx rsp)

namespace Target

def load (target : Target) (op : Operation) : Emission := do
  let dest ← destinationOf op
  let address ← sourceOf op 0
  let isFloat := dest.type.isFloat
  sequence
    [target.fetch false address rax,
      emit (loadAs isFloat (Width.ofType dest.type) (scratchOf isFloat) rax 0),
      target.keep isFloat dest (scratchOf isFloat)]

def store (target : Target) (op : Operation) : Emission := do
  let address ← sourceOf op 0
  let value ← sourceOf op 1
  let isFloat := value.type.isFloat
  sequence
    [target.fetch false address rcx, target.fetch isFloat value (scratchOf isFloat),
      emit (storeAs isFloat (Width.ofType value.type) rcx 0 (scratchOf isFloat))]

/-- Move an argument that came on the stack to its home. A float is moved by its bits. -/
def takeStack (target : Target) (dest : Operand) (offset : Nat) : Emission := do
  let width := Width.ofType dest.type
  let displacement ← target.frame.incomingOffset offset
  let inRegister (dst : HostRegister) : Emission :=
    if dest.type.isFloat then emit (Assembler.movToXmm width dst rax)
    else emit (Assembler.mov width dst rax)
  sequence
    [emit (Assembler.load width rax rsp displacement),
      target.atHome dest inRegister fun disp => emit (Assembler.store width rsp disp rax)]

/-- Copy an argument to its home. No other argument register is touched. -/
def loadArgument (target : Target) (op : Operation) (index : Nat) : Emission := do
  let dest ← destinationOf op
  match target.arguments[index]? with
  | none => unsupported (.missingArgument op target.arguments.length)
  | some (.register source) => target.keep dest.type.isFloat dest source
  | some (.stack offset) => target.takeStack dest offset

/-- Put an outgoing argument on the stack; integers fill their slot. -/
def passStack (target : Target) (argument : Operand) (offset : Nat) : Emission :=
  let isFloat := argument.type.isFloat
  let width := if isFloat then Width.ofType argument.type else .w64
  sequence
    [target.fetch isFloat argument (scratchOf isFloat),
      emit (storeAs isFloat width rsp (BitVec.ofNat 32 offset) (scratchOf isFloat))]

/-- Pass the arguments of a call: those on the stack first, because loading them uses the
scratch registers, which may be argument registers too. -/
def passArguments (target : Target) (arguments : List Operand) : Emission :=
  let places := arguments.zip (target.convention.places (arguments.map Operand.type))
  let onStack := places.filterMap fun
    | (argument, .stack offset) => some (target.passStack argument offset)
    | _ => none
  let inRegisters := places.filterMap fun
    | (argument, .register register) => some (target.fetch argument.type.isFloat argument register)
    | _ => none
  sequence (onStack ++ inRegisters)

def call (target : Target) (op : Operation) : Emission := do
  let callee ← sourceOf op 0
  sequence
    [target.passArguments (op.sources.drop 1), target.fetch false callee rax,
      emit (Assembler.callReg rax),
      match op.destination with
      | some dest => target.keep dest.type.isFloat dest (Convention.returnRegister dest.type)
      | none => .ok []]

/-- Return, with the first source as the value. -/
def ret (target : Target) (op : Operation) : Emission :=
  sequence
    [match op.sources.head? with
      | some value => target.fetch value.type.isFloat value (Convention.returnRegister value.type)
      | none => .ok [],
      .ok (target.frame.epilogue.map .instr)]

end Target

/-- Go on with a block. The next one in order needs no jump. -/
def goTo (block : Block) (target : Nat) : List Item :=
  if target = block.index + 1 then [] else [.jump none target]

def nextOf (block : Block) : Outcome Nat :=
  match block.next? with
  | some next => .ok next
  | none => unsupported (.branchTarget block.index false)

def takenOf (block : Block) : Outcome Nat :=
  match block.taken? with
  | some taken => .ok taken
  | none => unsupported (.branchTarget block.index true)

def branch (block : Block) : Emission := do
  return goTo block (← nextOf block)

def Target.branchIf (target : Target) (block : Block) (op : Operation)
    (comparison : Comparison) : Emission := do
  let a ← sourceOf op 0
  let b ← sourceOf op 1
  let taken ← takenOf block
  let next ← nextOf block
  let jump : Emission :=
    if a.type.isFloat then
      sequence
        [target.floatCompare comparison a b, emit (Assembler.alu .test .w32 rax rax),
          .ok [.jump (some .notEqual) taken]]
    else
      sequence
        [target.integerCompare a b, .ok [.jump (some (Condition.ofIntegers comparison)) taken]]
  sequence [jump, .ok (goTo block next)]

end GraphJit.Lowering
