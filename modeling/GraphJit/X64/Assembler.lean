import GraphJit.X64.Encode

/-! # Assembling with arbitrary register names

Instructions are built from host register names, which may name nothing. Every
operand is checked in the order in which it stands in the definition.
-/

namespace GraphJit.X64.Assembler

abbrev Result := Except EncodingError

/-- The index of a register of a bank, used as an operand of the given class. -/
def indexIn (bank : Nat) (other expected : RegisterClass) (register : HostRegister) :
    Result (Fin 16) :=
  if register.bank = bank then
    if bound : register.id < 16 then .ok ⟨register.id, bound⟩
    else .error (.notRegister register expected)
  else .error (.notRegister register other)

def general (expected : RegisterClass) (register : HostRegister) : Result Gpr := do
  return ⟨← indexIn HostRegister.gpBank .general expected register⟩

/-- The class of integer operands of a width. -/
def wordClass : Width → RegisterClass
  | .w32 => .word32
  | .w64 => .word64

def word (width : Width) (register : HostRegister) : Result Gpr :=
  general (wordClass width) register

def lowByte (register : HostRegister) : Result Gpr :=
  general .byte register

def vector (register : HostRegister) : Result Xmm := do
  return ⟨← indexIn HostRegister.vecBank .vector .xmm register⟩

def mov (width : Width) (dst src : HostRegister) : Result Instr := do
  let dst ← word width dst
  return .mov width dst (← word width src)

/-- Load a constant; the 32-bit form keeps its low half. -/
def movImm (width : Width) (dst : HostRegister) (value : BitVec 64) : Result Instr := do
  let dst ← word width dst
  match width with
  | .w32 => return .movImm32 dst (value.setWidth 32)
  | .w64 => return .movImm64 dst value

def load (width : Width) (dst base : HostRegister) (displacement : BitVec 32) :
    Result Instr := do
  let base ← word .w64 base
  return .load width (← word width dst) ⟨base, displacement⟩

def store (width : Width) (base : HostRegister) (displacement : BitVec 32)
    (src : HostRegister) : Result Instr := do
  let base ← word .w64 base
  return .store width ⟨base, displacement⟩ (← word width src)

def alu (op : AluOp) (width : Width) (dst src : HostRegister) : Result Instr := do
  let dst ← word width dst
  return .alu op width dst (← word width src)

def aluImm (op : AluOp) (width : Width) (dst : HostRegister) (value : BitVec 32) :
    Result Instr :=
  return .aluImm op width (← word width dst) value

def imul (width : Width) (dst src : HostRegister) : Result Instr := do
  let dst ← word width dst
  return .imul width dst (← word width src)

def shift (op : ShiftOp) (width : Width) (dst : HostRegister) : Result Instr :=
  return .shift op width (← word width dst)

def unary (op : UnaryOp) (width : Width) (register : HostRegister) : Result Instr :=
  return .unary op width (← word width register)

def setcc (condition : Condition) (dst : HostRegister) : Result Instr :=
  return .setcc condition (← lowByte dst)

def alu8 (op : ByteOp) (dst src : HostRegister) : Result Instr := do
  let dst ← lowByte dst
  return .alu8 op dst (← lowByte src)

def movzx8 (dst src : HostRegister) : Result Instr := do
  let dst ← word .w32 dst
  return .movzx8 dst (← lowByte src)

def movsxd (dst src : HostRegister) : Result Instr := do
  let dst ← word .w64 dst
  return .movsxd dst (← word .w32 src)

def push (register : HostRegister) : Result Instr :=
  return .push (← word .w64 register)

def pop (register : HostRegister) : Result Instr :=
  return .pop (← word .w64 register)

def callReg (register : HostRegister) : Result Instr :=
  return .callReg (← word .w64 register)

def fpMov (dst src : HostRegister) : Result Instr := do
  let dst ← vector dst
  return .fpMov dst (← vector src)

def fpXor (dst src : HostRegister) : Result Instr := do
  let dst ← vector dst
  return .fpXor dst (← vector src)

def fpLoad (width : Width) (dst base : HostRegister) (displacement : BitVec 32) :
    Result Instr := do
  let dst ← vector dst
  return .fpLoad width dst ⟨← word .w64 base, displacement⟩

def fpStore (width : Width) (base : HostRegister) (displacement : BitVec 32)
    (src : HostRegister) : Result Instr := do
  let src ← vector src
  return .fpStore width ⟨← word .w64 base, displacement⟩ src

def fpBinary (op : FloatOp) (width : Width) (dst src : HostRegister) : Result Instr := do
  let dst ← vector dst
  return .fpBinary op width dst (← vector src)

def fpCompare (width : Width) (a b : HostRegister) : Result Instr := do
  let a ← vector a
  return .fpCompare width a (← vector b)

def movToXmm (width : Width) (dst src : HostRegister) : Result Instr := do
  let dst ← vector dst
  return .movToXmm width dst (← word width src)

def cvtIntToFp (int float : Width) (dst src : HostRegister) : Result Instr := do
  let dst ← vector dst
  return .cvtIntToFp int float dst (← word int src)

def cvtFpToInt (int float : Width) (dst src : HostRegister) : Result Instr := do
  let src ← vector src
  return .cvtFpToInt int float (← word int dst) src

def cvtFpToFp (target : Width) (dst src : HostRegister) : Result Instr := do
  let dst ← vector dst
  return .cvtFpToFp target dst (← vector src)

def saveXmm (base : HostRegister) (displacement : BitVec 32) (src : HostRegister) :
    Result Instr := do
  let src ← vector src
  return .saveXmm ⟨← word .w64 base, displacement⟩ src

def restoreXmm (dst base : HostRegister) (displacement : BitVec 32) : Result Instr := do
  let dst ← vector dst
  return .restoreXmm dst ⟨← word .w64 base, displacement⟩

/-- A jump by an offset that must fit in 32 bits. -/
def jmp (offset : Int) : Result Instr :=
  if fitsWord offset then .ok (.jmp (BitVec.ofInt 32 offset)) else .error (.offsetRange offset)

def jcc (condition : Condition) (offset : Int) : Result Instr :=
  if fitsWord offset then .ok (.jcc condition (BitVec.ofInt 32 offset))
  else .error (.offsetRange offset)

end GraphJit.X64.Assembler
