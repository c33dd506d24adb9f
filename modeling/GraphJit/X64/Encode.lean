import GraphJit.X64.Branch
import GraphJit.X64.Instr

/-! # Instruction encoding

Each instruction has one encoding for a given choice of vector instruction set.
Operands between two registers use the opcode that stores to the second field;
immediates and displacements take the shortest field, except that the
accumulator forms always carry four bytes.
-/

namespace GraphJit.X64

/-- Second operand of an encoding: a register or a memory address. -/
inductive RegMem where
  | reg (index : Fin 16)
  | mem (address : Address)
deriving DecidableEq, Repr

namespace RegMem

/-- Number of the register that the field refers to. -/
def index : RegMem → Fin 16
  | reg index => index
  | mem address => address.base.index

end RegMem

/-- Whether the number of a register needs an extension bit. -/
def isExtended (index : Fin 16) : Bool :=
  8 ≤ index.val

/-- Low three bits of a register number. -/
def lowBits (index : Fin 16) : Nat :=
  index.val % 8

/-- The byte that holds an addressing mode, a register and a register or base. -/
def modRM (mode register rm : Nat) : UInt8 :=
  byte (mode * 64 + register * 8 + rm)

/-- Base registers that take an extra byte, which says that there is no index. -/
def indexByte (base : Gpr) : List UInt8 :=
  if lowBits base.index = 4 then [0x24] else []

/-- Encode the operand fields. An address has no displacement, one byte, or four. -/
def operandBytes (register : Nat) : RegMem → List UInt8
  | .reg index => [modRM 3 register (lowBits index)]
  | .mem address =>
    let base := lowBits address.base.index
    if address.displacement = 0 ∧ base ≠ 5 then
      modRM 0 register base :: indexByte address.base
    else if fitsByte address.displacement.toInt then
      modRM 1 register base :: indexByte address.base ++ littleEndian address.displacement 1
    else
      modRM 2 register base :: indexByte address.base ++ littleEndian address.displacement 4

/-- The byte of extension bits: operand width, register, register or base. -/
def rexByte (wide register rm : Bool) : UInt8 :=
  byte (0x40 + wide.toNat * 8 + register.toNat * 4 + rm.toNat)

/-- The byte of extension bits, where it is needed. -/
def rexBytes (forced wide register rm : Bool) : List UInt8 :=
  if forced || wide || register || rm then [rexByte wide register rm] else []

def Width.isWide : Width → Bool
  | .w32 => false
  | .w64 => true

/-- An integer instruction with a register field and a register or memory field. -/
def integerForm (forced : Bool) (width : Width) (opcode : List UInt8) (register : Fin 16)
    (rm : RegMem) : List UInt8 :=
  rexBytes forced width.isWide (isExtended register) (isExtended rm.index) ++ opcode
    ++ operandBytes (lowBits register) rm

/-- An integer instruction whose register field extends the opcode. -/
def extendedForm (forced : Bool) (width : Width) (opcode : List UInt8) (extension : Nat)
    (register : Gpr) : List UInt8 :=
  rexBytes forced width.isWide false (isExtended register.index) ++ opcode
    ++ operandBytes extension (.reg register.index)

/-- An instruction whose opcode holds the register. -/
def opcodeForm (width : Width) (opcode : Nat) (register : Gpr) : List UInt8 :=
  rexBytes false width.isWide false (isExtended register.index)
    ++ [byte (opcode + lowBits register.index)]

/-- Whether the low byte of a register can only be named with an extension byte. -/
def needsByteRex (register : Gpr) : Bool :=
  4 ≤ register.index.val && register.index.val < 8

/-- Mandatory lead byte of a vector instruction. -/
inductive VectorLead where
  | bare
  | x66
  | xF3
  | xF2
deriving DecidableEq, Repr

namespace VectorLead

def bytes : VectorLead → List UInt8
  | bare => []
  | x66 => [0x66]
  | xF3 => [0xF3]
  | xF2 => [0xF2]

def code : VectorLead → Nat
  | bare => 0
  | x66 => 1
  | xF3 => 2
  | xF2 => 3

/-- Lead of the scalar operations on a float width. -/
def scalar : Width → VectorLead
  | .w32 => xF3
  | .w64 => xF2

end VectorLead

/-- A vector instruction. The extended set names an extra source register in those
forms that combine two sources. -/
structure VectorForm where
  lead : VectorLead
  wide : Bool := false
  opcode : UInt8
  register : Fin 16
  rm : RegMem
  extra : Option (Fin 16) := none
deriving Repr

namespace VectorForm

def legacyBytes (form : VectorForm) : List UInt8 :=
  form.lead.bytes ++ rexBytes false form.wide (isExtended form.register) (isExtended form.rm.index)
    ++ [0x0F, form.opcode] ++ operandBytes (lowBits form.register) form.rm

/-- Extension bits, extra register and lead are packed into two or three bytes. The bits
and the register are stored inverted. -/
def extendedBytes (form : VectorForm) : List UInt8 :=
  let register := (!isExtended form.register).toNat * 128
  let extra := (15 - (form.extra.map Fin.val).getD 0) * 8
  let operands := form.opcode :: operandBytes (lowBits form.register) form.rm
  if form.wide || isExtended form.rm.index then
    let base := (!isExtended form.rm.index).toNat * 32
    0xC4 :: byte (register + 64 + base + 1)
      :: byte (form.wide.toNat * 128 + extra + form.lead.code) :: operands
  else 0xC5 :: byte (register + extra + form.lead.code) :: operands

def bytes (avx : Bool) (form : VectorForm) : List UInt8 :=
  if avx then form.extendedBytes else form.legacyBytes

end VectorForm

namespace AluOp

/-- Opcode of the form between two registers. -/
def opcode : AluOp → UInt8
  | add => 0x01
  | sub => 0x29
  | and => 0x21
  | or => 0x09
  | xor => 0x31
  | cmp => 0x39
  | test => 0x85

/-- Opcode of the form with the accumulator and an immediate. -/
def accumulatorOpcode : AluOp → UInt8
  | add => 0x05
  | sub => 0x2D
  | and => 0x25
  | or => 0x0D
  | xor => 0x35
  | cmp => 0x3D
  | test => 0xA9

/-- Opcode extension of the forms with an immediate. -/
def extension : AluOp → Nat
  | add => 0
  | sub => 5
  | and => 4
  | or => 1
  | xor => 6
  | cmp => 7
  | test => 0

end AluOp

def ByteOp.opcode : ByteOp → UInt8
  | and => 0x20
  | or => 0x08

def ShiftOp.extension : ShiftOp → Nat
  | shl => 4
  | sar => 7
  | shr => 5

def UnaryOp.extension : UnaryOp → Nat
  | not => 2
  | neg => 3
  | idiv => 7
  | div => 6

def FloatOp.opcode : FloatOp → UInt8
  | add => 0x58
  | sub => 0x5C
  | mul => 0x59
  | div => 0x5E

/-- An operation between a register and an immediate. -/
def aluImmBytes (op : AluOp) (width : Width) (dst : Gpr) (value : BitVec 32) : List UInt8 :=
  if dst = Gpr.rax then
    rexBytes false width.isWide false false ++ op.accumulatorOpcode :: littleEndian value 4
  else if op = .test then
    extendedForm false width [0xF7] op.extension dst ++ littleEndian value 4
  else if fitsByte value.toInt then
    extendedForm false width [0x83] op.extension dst ++ littleEndian value 1
  else extendedForm false width [0x81] op.extension dst ++ littleEndian value 4

/-- The form of those instructions that both vector instruction sets have. -/
def Instr.vectorForm? : Instr → Option VectorForm
  | fpMov dst src =>
    some { lead := .bare, opcode := 0x28, register := dst.index, rm := .reg src.index }
  | fpXor dst src =>
    some {
      lead := .bare, opcode := 0x57, register := dst.index, rm := .reg src.index
      extra := some dst.index }
  | fpLoad width dst source =>
    some { lead := .scalar width, opcode := 0x10, register := dst.index, rm := .mem source }
  | fpStore width target src =>
    some { lead := .scalar width, opcode := 0x11, register := src.index, rm := .mem target }
  | fpBinary op width dst src =>
    some {
      lead := .scalar width, opcode := op.opcode, register := dst.index, rm := .reg src.index
      extra := some dst.index }
  | fpCompare width a b =>
    some {
      lead := if width = .w32 then .bare else .x66
      opcode := 0x2E, register := a.index, rm := .reg b.index }
  | movToXmm width dst src =>
    some {
      lead := .x66, wide := width.isWide, opcode := 0x6E, register := dst.index
      rm := .reg src.index }
  | cvtIntToFp int float dst src =>
    some {
      lead := .scalar float, wide := int.isWide, opcode := 0x2A, register := dst.index
      rm := .reg src.index, extra := some dst.index }
  | cvtFpToInt int float dst src =>
    some {
      lead := .scalar float, wide := int.isWide, opcode := 0x2C, register := dst.index
      rm := .reg src.index }
  | cvtFpToFp target dst src =>
    some {
      lead := if target = .w32 then .xF2 else .xF3
      opcode := 0x5A, register := dst.index, rm := .reg src.index, extra := some dst.index }
  | saveXmm target src =>
    some { lead := .xF3, opcode := 0x7F, register := src.index, rm := .mem target }
  | restoreXmm dst source =>
    some { lead := .xF3, opcode := 0x6F, register := dst.index, rm := .mem source }
  | _ => none

/-- Encoding of the instructions outside the vector instruction sets. -/
def Instr.integerBytes : Instr → List UInt8
  | mov width dst src => integerForm false width [0x89] src.index (.reg dst.index)
  | movImm32 dst value => opcodeForm .w32 0xB8 dst ++ littleEndian value 4
  | movImm64 dst value => opcodeForm .w64 0xB8 dst ++ littleEndian value 8
  | load width dst source => integerForm false width [0x8B] dst.index (.mem source)
  | store width target src => integerForm false width [0x89] src.index (.mem target)
  | alu op width dst src => integerForm false width [op.opcode] src.index (.reg dst.index)
  | aluImm op width dst value => aluImmBytes op width dst value
  | imul width dst src => integerForm false width [0x0F, 0xAF] dst.index (.reg src.index)
  | shift op width dst => extendedForm false width [0xD3] op.extension dst
  | unary op width register => extendedForm false width [0xF7] op.extension register
  | signExtendAccumulator width => rexBytes false width.isWide false false ++ [0x99]
  | setcc condition dst =>
    extendedForm (needsByteRex dst) .w32 [0x0F, byte (0x90 + condition.code)] 0 dst
  | alu8 op dst src =>
    integerForm (needsByteRex dst || needsByteRex src) .w32 [op.opcode] src.index
      (.reg dst.index)
  | movzx8 dst src =>
    integerForm (needsByteRex src) .w32 [0x0F, 0xB6] dst.index (.reg src.index)
  | movsxd dst src => integerForm false .w64 [0x63] dst.index (.reg src.index)
  | push register => opcodeForm .w32 0x50 register
  | pop register => opcodeForm .w32 0x58 register
  | callReg register => extendedForm false .w32 [0xFF] 2 register
  | ret => [0xC3]
  | jmp offset =>
    if fitsByte offset.toInt then shortForm 0xEB offset.toInt else 0xE9 :: littleEndian offset 4
  | jcc condition offset =>
    if fitsByte offset.toInt then shortForm (0x70 + condition.code) offset.toInt
    else 0x0F :: byte (0x80 + condition.code) :: littleEndian offset 4
  | _ => []

/-- The bytes of an instruction, with or without the extended vector instruction set. -/
def Instr.encode (avx : Bool) (instr : Instr) : List UInt8 :=
  match instr.vectorForm? with
  | some form => form.bytes avx
  | none => instr.integerBytes

/-- The bytes of a jump in its shortest form. -/
def Instr.branch? : Instr → Option (Except EncodingError (List UInt8))
  | jmp offset => some (shortestJmp offset.toInt)
  | jcc condition offset => some (shortestJcc condition offset.toInt)
  | _ => none

end GraphJit.X64
