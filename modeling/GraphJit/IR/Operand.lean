import GraphJit.IR.ValueType

/-! # Operands

An operand is a constant, a guest register, or a local variable, accessed at a
value type.
-/

namespace GraphJit

/-- The two guest register files. -/
inductive RegisterKind where
  | integer
  | vector
deriving DecidableEq, Repr

/-- A guest register. -/
structure GuestRegister where
  kind : RegisterKind
  index : Nat
deriving DecidableEq, Repr

inductive Operand where
  /-- Raw bits; types of four bytes use the low half only. -/
  | constant (bits : BitVec 64) (type : ValueType)
  | register (guest : GuestRegister) (type : ValueType)
  | localVar (id : Nat) (type : ValueType)
deriving DecidableEq, Repr

namespace Operand

def type : Operand → ValueType
  | constant _ type => type
  | register _ type => type
  | localVar _ type => type

/-- The zero of a type. -/
def zero (type : ValueType) : Operand :=
  constant 0 type

def localId? : Operand → Option Nat
  | localVar id _ => some id
  | _ => none

def register? : Operand → Option GuestRegister
  | register guest _ => some guest
  | _ => none

/-- Bits of a constant operand. -/
def bits? : Operand → Option (BitVec 64)
  | constant bits _ => some bits
  | _ => none

def isConstant : Operand → Bool
  | constant _ _ => true
  | _ => false

/-- The bits of a constant as a 64-bit word: `i32` constants are sign extended from
their low half, all others stand for themselves. -/
def immediate? : Operand → Option (BitVec 64)
  | constant bits .i32 => some ((bits.setWidth 32).signExtend 64)
  | constant bits _ => some bits
  | _ => none

end Operand

end GraphJit
