import GraphJit.Lowering.Access

/-! # Arithmetic, comparisons and conversions

Integers are computed in the accumulator and the count register, floats in the
first two vector registers. Integer division is total: a quotient by zero is
zero, and a quotient by minus one wraps around.
-/

namespace GraphJit.Lowering

open X64 Code
open HostRegister (rax rcx rdx xmm0 xmm1)

/-- The float form of an arithmetic operation, if it has one. -/
def floatOp? : Instruction → Option FloatOp
  | .add => some .add
  | .sub => some .sub
  | .mul => some .mul
  | _ => none

/-- Integer arithmetic on the two scratch registers. -/
def integerOp (instruction : Instruction) (width : Width) : Assembler.Result Instr :=
  match instruction with
  | .mul => Assembler.imul width rax rcx
  | .add => Assembler.alu .add width rax rcx
  | .sub => Assembler.alu .sub width rax rcx
  | .and => Assembler.alu .and width rax rcx
  | .or => Assembler.alu .or width rax rcx
  | _ => Assembler.alu .xor width rax rcx

/-- A quotient by minus one is the negation, and a quotient by one afterwards. -/
def negativeGuard (width : Width) : Emission :=
  sequence
    [emit (Assembler.aluImm .cmp width rcx (-1)), .ok [.openNear .notEqual],
      emit (Assembler.unary .neg width rax), emit (Assembler.movImm .w32 rcx 1),
      .ok [.closeNear]]

/-- A quotient by zero becomes zero divided by one. -/
def zeroGuard (width : Width) : Emission :=
  sequence
    [emit (Assembler.alu .test width rcx rcx), .ok [.openNear .notEqual],
      emit (Assembler.alu .xor .w32 rax rax), emit (Assembler.movImm .w32 rcx 1),
      .ok [.closeNear]]

/-- The bits that a float's negation flips. -/
def signMask : ValueType → BitVec 64
  | .f32 => 0x80000000
  | _ => 0x8000000000000000

def shiftOp : Instruction → ShiftOp
  | .shl => .shl
  | .sar => .sar
  | _ => .shr

namespace Target

def floatBinary (target : Target) (fp : FloatOp) (dest a b : Operand) : Emission :=
  sequence
    [target.fetch true a xmm0, target.fetch true b xmm1,
      emit (Assembler.fpBinary fp (Width.ofType dest.type) xmm0 xmm1),
      target.keep true dest xmm0]

def binary (target : Target) (op : Operation) : Emission := do
  let dest ← destinationOf op
  let a ← sourceOf op 0
  let b ← sourceOf op 1
  if dest.type.isFloat then
    match floatOp? op.instruction with
    | some fp => target.floatBinary fp dest a b
    | none => unsupported (.floatType op)
  else
    sequence
      [target.fetch false a rax, target.fetch false b rcx,
        emit (integerOp op.instruction (Width.ofType dest.type)), target.keep false dest rax]

def divide (target : Target) (op : Operation) (signed : Bool) : Emission := do
  let dest ← destinationOf op
  let a ← sourceOf op 0
  let b ← sourceOf op 1
  if dest.type.isFloat then
    if signed then target.floatBinary .div dest a b else unsupported (.floatType op)
  else
    let width := Width.ofType dest.type
    sequence
      [target.fetch false a rax, target.fetch false b rcx,
        if signed then negativeGuard width else .ok [],
        zeroGuard width,
        if signed then
          sequence
            [emit (.ok (.signExtendAccumulator width)), emit (Assembler.unary .idiv width rcx)]
        else
          sequence [emit (Assembler.alu .xor .w32 rdx rdx), emit (Assembler.unary .div width rcx)],
        target.keep false dest rax]

def shift (target : Target) (op : Operation) : Emission := do
  let dest ← destinationOf op
  let a ← sourceOf op 0
  let b ← sourceOf op 1
  if dest.type.isFloat then unsupported (.floatType op)
  else
    sequence
      [target.fetch false a rax, target.fetch false b rcx,
        emit (Assembler.shift (shiftOp op.instruction) (Width.ofType dest.type) rax),
        target.keep false dest rax]

def complement (target : Target) (op : Operation) : Emission := do
  let dest ← destinationOf op
  let src ← sourceOf op 0
  if dest.type.isFloat then unsupported (.floatType op)
  else
    sequence
      [target.fetch false src rax, emit (Assembler.unary .not (Width.ofType dest.type) rax),
        target.keep false dest rax]

def negate (target : Target) (op : Operation) : Emission := do
  let dest ← destinationOf op
  let src ← sourceOf op 0
  let width := Width.ofType dest.type
  if dest.type.isFloat then
    sequence
      [target.fetch true src xmm0, emit (Assembler.movImm width rax (signMask dest.type)),
        emit (Assembler.movToXmm width xmm1 rax), emit (Assembler.fpXor xmm0 xmm1),
        target.keep true dest xmm0]
  else
    sequence
      [target.fetch false src rax, emit (Assembler.unary .neg width rax),
        target.keep false dest rax]

def copy (target : Target) (op : Operation) : Emission := do
  let dest ← destinationOf op
  let src ← sourceOf op 0
  let isFloat := dest.type.isFloat
  if isFloat = src.type.isFloat then
    sequence
      [target.fetch isFloat src (scratchOf isFloat), target.keep isFloat dest (scratchOf isFloat)]
  else unsupported (.mixedTypes op)

/-- Correct a float comparison for unordered operands: they are unequal, and in no other
relation. -/
def unorderedFix (target : Target) (comparison : Comparison) : Emission :=
  if target.fastFloat then .ok []
  else if comparison = .ne then
    sequence [emit (Assembler.setcc .parityEven rcx), emit (Assembler.alu8 .or rax rcx)]
  else
    sequence [emit (Assembler.setcc .parityOdd rcx), emit (Assembler.alu8 .and rax rcx)]

/-- Compare two floats and leave zero or one in the accumulator. -/
def floatCompare (target : Target) (comparison : Comparison) (a b : Operand) : Emission :=
  sequence
    [target.fetch true a xmm0, target.fetch true b xmm1,
      emit (Assembler.fpCompare (Width.ofType a.type) xmm0 xmm1),
      emit (Assembler.setcc (Condition.ofFloats comparison) rax),
      target.unorderedFix comparison, emit (Assembler.movzx8 rax rax)]

/-- Set the flags by two integers. -/
def integerCompare (target : Target) (a b : Operand) : Emission :=
  sequence
    [target.fetch false a rax, target.fetch false b rcx,
      emit (Assembler.alu .cmp (Width.ofType a.type) rax rcx)]

def compare (target : Target) (op : Operation) (comparison : Comparison) : Emission := do
  let dest ← destinationOf op
  let a ← sourceOf op 0
  let b ← sourceOf op 1
  if dest.type.isFloat then unsupported (.needsIntegerDestination op)
  else if a.type.isFloat then
    sequence [target.floatCompare comparison a b, target.keep false dest rax]
  else
    sequence
      [target.integerCompare a b, emit (Assembler.setcc (Condition.ofIntegers comparison) rax),
        emit (Assembler.movzx8 rax rax), target.keep false dest rax]

/-- Take the second source if the first is not zero, and the third otherwise. -/
def select (target : Target) (op : Operation) : Emission := do
  let dest ← destinationOf op
  let condition ← sourceOf op 0
  let ifTrue ← sourceOf op 1
  let ifFalse ← sourceOf op 2
  if condition.type.isFloat then unsupported (.floatCondition op)
  else
    let isFloat := dest.type.isFloat
    let register := scratchOf isFloat
    sequence
      [target.fetch false condition rcx, target.fetch isFloat ifTrue register,
        emit (Assembler.alu .test (Width.ofType condition.type) rcx rcx),
        .ok [.openNear .notEqual], target.fetch isFloat ifFalse register, .ok [.closeNear],
        target.keep isFloat dest register]

def extend (target : Target) (op : Operation) (signed : Bool) : Emission := do
  let dest ← destinationOf op
  let src ← sourceOf op 0
  if dest.type.isFloat || src.type.isFloat then unsupported (.floatType op)
  else
    sequence
      [target.fetch false src rax,
        emit (if signed then Assembler.movsxd rax rax else Assembler.mov .w32 rax rax),
        target.keep false dest rax]

def convertToFloat (target : Target) (op : Operation) : Emission := do
  let dest ← destinationOf op
  let src ← sourceOf op 0
  let width := Width.ofType dest.type
  if dest.type.isInteger then unsupported (.needsFloatDestination op)
  else if src.type.isInteger then
    sequence
      [target.fetch false src rax, emit (Assembler.fpXor xmm0 xmm0),
        emit (Assembler.cvtIntToFp (Width.ofType src.type) width xmm0 rax),
        target.keep true dest xmm0]
  else
    sequence
      [target.fetch true src xmm0,
        if src.type = dest.type then .ok [] else emit (Assembler.cvtFpToFp width xmm0 xmm0),
        target.keep true dest xmm0]

def convertToInteger (target : Target) (op : Operation) : Emission := do
  let dest ← destinationOf op
  let src ← sourceOf op 0
  if dest.type.isFloat || src.type.isInteger then unsupported (.needsFloatSource op)
  else
    sequence
      [target.fetch true src xmm0,
        emit (Assembler.cvtFpToInt (Width.ofType dest.type) (Width.ofType src.type) rax xmm0),
        target.keep false dest rax]

end Target

end GraphJit.Lowering
