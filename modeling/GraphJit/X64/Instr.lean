import GraphJit.IR.ValueType
import GraphJit.X64.Condition

/-! # Machine instructions

The instructions that the code generator uses, as data. Register operands are
valid by construction; immediates and displacements have the width of their
field.
-/

namespace GraphJit.X64

/-- A general purpose register. -/
structure Gpr where
  index : Fin 16
deriving DecidableEq, Repr

/-- The accumulator. -/
def Gpr.rax : Gpr := ⟨⟨0, by decide⟩⟩

/-- The stack pointer. -/
def Gpr.rsp : Gpr := ⟨⟨4, by decide⟩⟩

/-- A vector register. -/
structure Xmm where
  index : Fin 16
deriving DecidableEq, Repr

/-- Width of an integer operation, or of a scalar float. -/
inductive Width where
  | w32
  | w64
deriving DecidableEq, Repr

def Width.ofType (type : ValueType) : Width :=
  if type.size = 4 then .w32 else .w64

/-- A memory operand. -/
structure Address where
  base : Gpr
  displacement : BitVec 32
deriving DecidableEq, Repr

inductive AluOp where
  | add
  | sub
  | and
  | or
  | xor
  | cmp
  | test
deriving DecidableEq, Repr

/-- Operations on the low bytes of two registers. -/
inductive ByteOp where
  | and
  | or
deriving DecidableEq, Repr

inductive ShiftOp where
  | shl
  | sar
  | shr
deriving DecidableEq, Repr

/-- Operations on one register; the divisions use the accumulator pair too. -/
inductive UnaryOp where
  | not
  | neg
  | idiv
  | div
deriving DecidableEq, Repr

inductive FloatOp where
  | add
  | sub
  | mul
  | div
deriving DecidableEq, Repr

inductive Instr where
  | mov (width : Width) (dst src : Gpr)
  | movImm32 (dst : Gpr) (value : BitVec 32)
  | movImm64 (dst : Gpr) (value : BitVec 64)
  | load (width : Width) (dst : Gpr) (source : Address)
  | store (width : Width) (target : Address) (src : Gpr)
  | alu (op : AluOp) (width : Width) (dst src : Gpr)
  | aluImm (op : AluOp) (width : Width) (dst : Gpr) (value : BitVec 32)
  | imul (width : Width) (dst src : Gpr)
  /-- Shift by the low byte of the count register. -/
  | shift (op : ShiftOp) (width : Width) (dst : Gpr)
  | unary (op : UnaryOp) (width : Width) (register : Gpr)
  /-- Spread the sign of the accumulator over the data register. -/
  | signExtendAccumulator (width : Width)
  | setcc (condition : Condition) (dst : Gpr)
  | alu8 (op : ByteOp) (dst src : Gpr)
  /-- Zero extend a byte to 32 bits. -/
  | movzx8 (dst src : Gpr)
  /-- Sign extend 32 bits to 64. -/
  | movsxd (dst src : Gpr)
  | push (register : Gpr)
  | pop (register : Gpr)
  | callReg (register : Gpr)
  | ret
  /-- Copy a whole vector register. -/
  | fpMov (dst src : Xmm)
  | fpXor (dst src : Xmm)
  | fpLoad (width : Width) (dst : Xmm) (source : Address)
  | fpStore (width : Width) (target : Address) (src : Xmm)
  | fpBinary (op : FloatOp) (width : Width) (dst src : Xmm)
  /-- Unordered comparison. -/
  | fpCompare (width : Width) (a b : Xmm)
  | movToXmm (width : Width) (dst : Xmm) (src : Gpr)
  | cvtIntToFp (int float : Width) (dst : Xmm) (src : Gpr)
  /-- Convert with truncation. -/
  | cvtFpToInt (int float : Width) (dst : Gpr) (src : Xmm)
  /-- Convert to the given width from the other one. -/
  | cvtFpToFp (target : Width) (dst src : Xmm)
  | saveXmm (target : Address) (src : Xmm)
  | restoreXmm (dst : Xmm) (source : Address)
  /-- Jump by an offset from the end of the instruction. -/
  | jmp (offset : BitVec 32)
  | jcc (condition : Condition) (offset : BitVec 32)
deriving DecidableEq, Repr

end GraphJit.X64
