import GraphJit.Code.Stream
import GraphJit.Host.Allocation
import GraphJit.Host.Frame
import GraphJit.X64.Assembler

/-! # Operand access

Operations are lowered one at a time through scratch registers that hold no
local. Operands are loaded from their homes, and results are stored back.
-/

namespace GraphJit.Lowering

open X64 Code
open HostRegister (rax rsp xmm0)

/-- What the lowering of an operation depends on. -/
structure Target where
  convention : Convention
  /-- Trust the host's ordered comparisons, so that operands are never unordered. -/
  fastFloat : Bool
  allocation : Allocation
  frame : Frame
  /-- Where the function's own arguments arrive. -/
  arguments : List Place
deriving Repr

/-- Items to emit, unless the operation cannot be lowered. -/
abbrev Emission := Outcome (List Item)

/-- The scratch register that values of a class pass through. -/
def scratchOf (isFloat : Bool) : HostRegister := if isFloat then xmm0 else rax

/-! Copies of a register of a class. Vector registers are moved whole. -/

def moveAs (isFloat : Bool) (width : Width) (dst src : HostRegister) : Assembler.Result Instr :=
  if isFloat then Assembler.fpMov dst src else Assembler.mov width dst src

def loadAs (isFloat : Bool) (width : Width) (dst base : HostRegister) (disp : BitVec 32) :
    Assembler.Result Instr :=
  if isFloat then Assembler.fpLoad width dst base disp else Assembler.load width dst base disp

def storeAs (isFloat : Bool) (width : Width) (base : HostRegister) (disp : BitVec 32)
    (src : HostRegister) : Assembler.Result Instr :=
  if isFloat then Assembler.fpStore width base disp src else Assembler.store width base disp src

/-- One instruction. -/
def emit (instr : Assembler.Result Instr) : Emission := do
  return [.instr (← instr)]

/-- Several parts, one after the other. -/
def sequence (parts : List Emission) : Emission := do
  return (← parts.mapM id).flatten

def destinationOf (op : Operation) : Outcome Operand :=
  match op.destination with
  | some dest => .ok dest
  | none => unsupported (.missingDestination op)

def sourceOf (op : Operation) (index : Nat) : Outcome Operand :=
  match op.sources[index]? with
  | some source => .ok source
  | none => unsupported (.missingSource op index)

namespace Target

/-- The home of an operand, which has to be a local. -/
def location (target : Target) : Operand → Outcome Location
  | .localVar id _ =>
    match target.allocation.location? id with
    | some location => .ok location
    | none => .error (.error (.allocation (.unplaced id)))
  | .register guest _ => unsupported (.registerInCode guest)
  | .constant .. => unsupported .constantDestination

/-- Access an operand through its home. -/
def atHome (target : Target) (operand : Operand) (inRegister : HostRegister → Emission)
    (inSlot : BitVec 32 → Emission) : Emission := do
  match ← target.location operand with
  | .register register => inRegister register
  | .spill slot => inSlot (← target.frame.spillOffset slot)

/-- Load an operand into a register of a class. 32-bit integers are zero extended, and float
constants pass through the accumulator. -/
def fetch (target : Target) (isFloat : Bool) (operand : Operand) (dst : HostRegister) :
    Emission :=
  let width := Width.ofType operand.type
  match if isFloat then operand.bits? else operand.immediate? with
  | some value =>
    if isFloat then
      sequence [emit (Assembler.movImm width rax value), emit (Assembler.movToXmm width dst rax)]
    else emit (Assembler.movImm width dst value)
  | none =>
    target.atHome operand (fun src => emit (moveAs isFloat width dst src)) fun disp =>
      emit (loadAs isFloat width dst rsp disp)

/-- Store a register of a class to the home of an operand. -/
def keep (target : Target) (isFloat : Bool) (dest : Operand) (src : HostRegister) : Emission :=
  let width := Width.ofType dest.type
  target.atHome dest (fun dst => emit (moveAs isFloat width dst src)) fun disp =>
    emit (storeAs isFloat width rsp disp src)

end Target

end GraphJit.Lowering
