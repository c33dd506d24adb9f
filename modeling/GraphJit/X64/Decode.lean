import GraphJit.X64.Encode

/-! # Instruction decoding

Reads back the instructions that the encoder writes, from the front of a list
of bytes. Bytes that the encoder never writes there are refused.
-/

namespace GraphJit.X64

/-- Reads from the front of the remaining bytes. -/
abbrev Reader := StateT (List UInt8) Option

namespace Reader

def next : Reader UInt8
  | [] => none
  | value :: rest => some (value, rest)

/-- A word of `count` bytes, least significant first. -/
def word (width : Nat) : Nat → Reader (BitVec width)
  | 0 => return 0
  | count + 1 => do
      let low ← next
      let high ← word width count
      return low.toBitVec.setWidth width ||| (high <<< 8)

/-- A signed byte as a wider word. -/
def signedByte (width : Nat) : Reader (BitVec width) := do
  return (← next).toBitVec.signExtend width

end Reader

/-- The low four bits of a number. -/
def nibble (value : Nat) : Fin 16 :=
  ⟨value % 16, Nat.mod_lt _ (Nat.zero_lt_succ 15)⟩

/-- A register number from its low bits and its extension bit. -/
def registerNumber (extension : Bool) (low : Nat) : Fin 16 :=
  nibble (low % 8 + 8 * extension.toNat)

/-- The extension bits of an instruction. -/
structure Extensions where
  wide : Bool := false
  register : Bool := false
  rm : Bool := false
deriving DecidableEq, Repr

def Extensions.width (extensions : Extensions) : Width :=
  if extensions.wide then .w64 else .w32

/-- The extension byte, if the next byte is one. -/
def readExtensions : Reader Extensions := fun bytes =>
  match bytes with
  | value :: rest =>
    if value.toNat / 16 = 4 then
      some ({ wide := value.toNat / 8 % 2 = 1, register := value.toNat / 4 % 2 = 1
              rm := value.toNat % 2 = 1 }, rest)
    else some ({}, bytes)
  | [] => some ({}, [])

/-- The lead byte of a vector instruction, if the next byte is one. -/
def readLead : Reader VectorLead
  | 0x66 :: rest => some (.x66, rest)
  | 0xF3 :: rest => some (.xF3, rest)
  | 0xF2 :: rest => some (.xF2, rest)
  | bytes => some (.bare, bytes)

/-- The operand fields. -/
structure Fields where
  register : Fin 16
  rm : RegMem
deriving DecidableEq, Repr

/-- The displacement of an addressing mode. -/
def readDisplacement (mode low : Nat) : Reader (BitVec 32) :=
  match mode with
  | 0 => if low = 5 then failure else return 0
  | 1 => Reader.signedByte 32
  | _ => Reader.word 32 4

def readFields (extensions : Extensions) : Reader Fields := do
  let value := (← Reader.next).toNat
  let register := registerNumber extensions.register (value / 8)
  let index := registerNumber extensions.rm value
  if value / 64 = 3 then return ⟨register, .reg index⟩
  else
    if value % 8 = 4 then guard ((← Reader.next) = 0x24)
    return ⟨register, .mem ⟨⟨index⟩, ← readDisplacement (value / 64) (value % 8)⟩⟩

/-- The register of fields that name no memory, as an opcode extension and an operand. -/
def readExtended (extensions : Extensions) : Reader (Nat × Gpr) := do
  let fields ← readFields extensions
  match fields.rm with
  | .reg index => return (lowBits fields.register, ⟨index⟩)
  | .mem _ => failure

/-- Two general purpose registers: the register field and the other one. -/
def readPair (extensions : Extensions) : Reader (Gpr × Gpr) := do
  let fields ← readFields extensions
  match fields.rm with
  | .reg index => return (⟨fields.register⟩, ⟨index⟩)
  | .mem _ => failure

namespace AluOp

def all : List AluOp :=
  [add, sub, and, or, xor, cmp, test]

def ofOpcode? (opcode : UInt8) : Option AluOp :=
  all.find? (·.opcode = opcode)

def ofAccumulatorOpcode? (opcode : UInt8) : Option AluOp :=
  all.find? (·.accumulatorOpcode = opcode)

/-- The operation of an opcode extension with an immediate. -/
def ofExtension? (extension : Nat) : Option AluOp :=
  all.find? (·.extension = extension)

end AluOp

def ByteOp.ofOpcode? (opcode : UInt8) : Option ByteOp :=
  [ByteOp.and, .or].find? (·.opcode = opcode)

def ShiftOp.ofExtension? (extension : Nat) : Option ShiftOp :=
  [ShiftOp.shl, .sar, .shr].find? (·.extension = extension)

def UnaryOp.ofExtension? (extension : Nat) : Option UnaryOp :=
  [UnaryOp.not, .neg, .idiv, .div].find? (·.extension = extension)

def FloatOp.ofOpcode? (opcode : UInt8) : Option FloatOp :=
  [FloatOp.add, .sub, .mul, .div].find? (·.opcode = opcode)

/-- The width of a scalar instruction, by its lead. -/
def VectorLead.scalarWidth? : VectorLead → Option Width
  | xF3 => some .w32
  | xF2 => some .w64
  | _ => none

/-- The vector instruction of a form without its extra register. -/
def Instr.ofVectorForm? (lead : VectorLead) (extensions : Extensions) (opcode : UInt8)
    (fields : Fields) : Option Instr :=
  let dst : Xmm := ⟨fields.register⟩
  match lead, opcode, fields.rm with
  | .bare, 0x28, .reg index => some (.fpMov dst ⟨index⟩)
  | .bare, 0x57, .reg index => some (.fpXor dst ⟨index⟩)
  | .bare, 0x2E, .reg index => some (.fpCompare .w32 dst ⟨index⟩)
  | .x66, 0x2E, .reg index => some (.fpCompare .w64 dst ⟨index⟩)
  | .x66, 0x6E, .reg index => some (.movToXmm extensions.width dst ⟨index⟩)
  | .xF3, 0x7F, .mem address => some (.saveXmm address dst)
  | .xF3, 0x6F, .mem address => some (.restoreXmm dst address)
  | .xF2, 0x5A, .reg index => some (.cvtFpToFp .w32 dst ⟨index⟩)
  | .xF3, 0x5A, .reg index => some (.cvtFpToFp .w64 dst ⟨index⟩)
  | _, _, rm => do
      let float ← lead.scalarWidth?
      match opcode, rm with
      | 0x10, .mem address => return .fpLoad float dst address
      | 0x11, .mem address => return .fpStore float address dst
      | 0x2A, .reg index => return .cvtIntToFp extensions.width float dst ⟨index⟩
      | 0x2C, .reg index => return .cvtFpToInt extensions.width float ⟨fields.register⟩ ⟨index⟩
      | _, .reg index => return .fpBinary (← FloatOp.ofOpcode? opcode) float dst ⟨index⟩
      | _, _ => failure

/-- A vector instruction from its opcode on. -/
def readVector (lead : VectorLead) (extensions : Extensions) (opcode : UInt8) : Reader Instr := do
  let fields ← readFields extensions
  liftM (Instr.ofVectorForm? lead extensions opcode fields)

/-- The condition in the low half of an opcode. -/
def conditionOf (opcode : UInt8) : Condition :=
  Condition.ofCode (nibble opcode.toNat)

/-- An instruction with the two-byte opcodes. -/
def readLong (lead : VectorLead) (extensions : Extensions) : Reader Instr := do
  let opcode ← Reader.next
  if opcode = 0xAF then
    let (dst, src) ← readPair extensions
    return .imul extensions.width dst src
  else if opcode = 0xB6 then
    let (dst, src) ← readPair extensions
    return .movzx8 dst src
  else if opcode.toNat / 16 = 8 then return .jcc (conditionOf opcode) (← Reader.word 32 4)
  else if opcode.toNat / 16 = 9 then
    let (_, dst) ← readExtended extensions
    return .setcc (conditionOf opcode) dst
  else readVector lead extensions opcode

/-- A move of the opcode that stores a register. -/
def readStore (extensions : Extensions) : Reader Instr := do
  let fields ← readFields extensions
  match fields.rm with
  | .reg index => return .mov extensions.width ⟨index⟩ ⟨fields.register⟩
  | .mem address => return .store extensions.width address ⟨fields.register⟩

def readLoad (extensions : Extensions) : Reader Instr := do
  let fields ← readFields extensions
  match fields.rm with
  | .reg _ => failure
  | .mem address => return .load extensions.width ⟨fields.register⟩ address

/-- An operation with an immediate. -/
def readAluImm (extensions : Extensions) (value : Reader (BitVec 32)) : Reader Instr := do
  let (extension, dst) ← readExtended extensions
  let op ← liftM (AluOp.ofExtension? extension)
  return .aluImm op extensions.width dst (← value)

/-- An operation on one register, or a test with an immediate. -/
def readUnary (extensions : Extensions) : Reader Instr := do
  let (extension, register) ← readExtended extensions
  if extension = 0 then return .aluImm .test extensions.width register (← Reader.word 32 4)
  else return .unary (← liftM (UnaryOp.ofExtension? extension)) extensions.width register

def readMovImm (extensions : Extensions) (dst : Gpr) : Reader Instr := do
  if extensions.wide then return .movImm64 dst (← Reader.word 64 8)
  else return .movImm32 dst (← Reader.word 32 4)

/-- An operation between two registers, or with the accumulator and an immediate. -/
def readAlu (extensions : Extensions) (opcode : UInt8) : Reader Instr := do
  match AluOp.ofOpcode? opcode, ByteOp.ofOpcode? opcode, AluOp.ofAccumulatorOpcode? opcode with
  | some op, _, _ =>
    let (src, dst) ← readPair extensions
    return .alu op extensions.width dst src
  | _, some op, _ =>
    let (src, dst) ← readPair extensions
    return .alu8 op dst src
  | _, _, some op => return .aluImm op extensions.width Gpr.rax (← Reader.word 32 4)
  | _, _, _ => failure

/-- An instruction with the one-byte opcodes. -/
def readShort (extensions : Extensions) (opcode : UInt8) : Reader Instr := do
  let register : Gpr := ⟨registerNumber extensions.rm opcode.toNat⟩
  match opcode with
  | 0x89 => readStore extensions
  | 0x8B => readLoad extensions
  | 0x83 => readAluImm extensions (Reader.signedByte 32)
  | 0x81 => readAluImm extensions (Reader.word 32 4)
  | 0xF7 => readUnary extensions
  | 0xD3 =>
    let (extension, dst) ← readExtended extensions
    return .shift (← liftM (ShiftOp.ofExtension? extension)) extensions.width dst
  | 0x99 => return .signExtendAccumulator extensions.width
  | 0x63 =>
    let (dst, src) ← readPair extensions
    return .movsxd dst src
  | 0xFF =>
    let (extension, target) ← readExtended extensions
    guard (extension = 2)
    return .callReg target
  | 0xC3 => return .ret
  | 0xEB => return .jmp (← Reader.signedByte 32)
  | 0xE9 => return .jmp (← Reader.word 32 4)
  | _ =>
    if opcode.toNat / 8 = 0xB8 / 8 then readMovImm extensions register
    else if opcode.toNat / 8 = 0x50 / 8 then return .push register
    else if opcode.toNat / 8 = 0x58 / 8 then return .pop register
    else if opcode.toNat / 16 = 7 then
      return .jcc (conditionOf opcode) (← Reader.signedByte 32)
    else readAlu extensions opcode

/-- An instruction outside the extended vector set. -/
def readPlain : Reader Instr := do
  let lead ← readLead
  let extensions ← readExtensions
  let opcode ← Reader.next
  if opcode = 0x0F then readLong lead extensions
  else
    guard (lead = .bare)
    readShort extensions opcode

/-- The lead that is packed into the last byte before an opcode. -/
def leadOf (packed : Nat) : VectorLead :=
  match packed % 4 with
  | 0 => .bare
  | 1 => .x66
  | 2 => .xF3
  | _ => .xF2

/-- An instruction with two packed bytes in front. -/
def readPacked2 : Reader Instr := do
  let packed := (← Reader.next).toNat
  readVector (leadOf packed) { register := packed / 128 = 0 } (← Reader.next)

/-- An instruction with three packed bytes in front. -/
def readPacked3 : Reader Instr := do
  let bits := (← Reader.next).toNat
  let packed := (← Reader.next).toNat
  let extensions : Extensions := {
    wide := packed / 128 = 1, register := bits / 128 = 0, rm := bits / 32 % 2 = 0 }
  readVector (leadOf packed) extensions (← Reader.next)

/-- The first instruction, and whether it belongs to the extended vector set. -/
def readInstr : Reader (Bool × Instr)
  | 0xC5 :: rest => (readPacked2.run rest).map fun (instr, rest) => ((true, instr), rest)
  | 0xC4 :: rest => (readPacked3.run rest).map fun (instr, rest) => ((true, instr), rest)
  | bytes => (readPlain.run bytes).map fun (instr, rest) => ((false, instr), rest)

end GraphJit.X64
