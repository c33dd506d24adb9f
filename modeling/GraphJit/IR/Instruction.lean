/-! # Instructions -/

namespace GraphJit

/-- Conditions of compares and conditional branches. -/
inductive Comparison where
  | eq
  | ne
  | ge
  | le
  | gt
  | lt
  | geu
  | leu
  | gtu
  | ltu
deriving DecidableEq, Repr, Inhabited

namespace Comparison

def name : Comparison → String
  | eq => "eq"
  | ne => "ne"
  | ge => "ge"
  | le => "le"
  | gt => "gt"
  | lt => "lt"
  | geu => "geu"
  | leu => "leu"
  | gtu => "gtu"
  | ltu => "ltu"

def ofName? (name : String) : Option Comparison :=
  [eq, ne, ge, le, gt, lt, geu, leu, gtu, ltu].find? (·.name = name)

end Comparison

inductive Instruction where
  | add
  | sub
  | mul
  /-- Signed division; division by zero yields zero. -/
  | div
  /-- Unsigned division; division by zero yields zero. -/
  | divu
  | and
  | or
  | xor
  | not
  | neg
  | shl
  /-- Arithmetic shift to the right. -/
  | sar
  /-- Logical shift to the right. -/
  | shr
  | copy
  /-- One if the condition holds of the two sources, else zero. -/
  | compare (comparison : Comparison)
  /-- The second source if the first is not zero, else the third. -/
  | select
  | zeroExtend32
  | signExtend32
  /-- From a signed integer or the other float width. -/
  | toFloat
  /-- From a float to a signed integer, rounding toward zero. -/
  | toInteger
  /-- Read memory at the first source. -/
  | load
  /-- Write the second source to memory at the first. -/
  | store
  /-- Read a function argument. -/
  | loadArgument (index : Nat)
  /-- Call the first source with the others as arguments. -/
  | call
  | phi
  | ret
  | branch
  /-- Go to the second successor if the condition holds of the two sources. -/
  | branchIf (comparison : Comparison)
deriving DecidableEq, Repr

namespace Instruction

/-- Whether the instruction ends a block. -/
def isTerminator : Instruction → Bool
  | ret | branch | branchIf _ => true
  | _ => false

def isLoadArgument : Instruction → Bool
  | loadArgument _ => true
  | _ => false

/-- Whether a destination is written, and the number of sources, where both are fixed. -/
def shape? : Instruction → Option (Bool × Nat)
  | add | sub | mul | div | divu | and | or | xor | shl | sar | shr | compare _ => some (true, 2)
  | not | neg | copy | zeroExtend32 | signExtend32 | toFloat | toInteger | load => some (true, 1)
  | select => some (true, 3)
  | store => some (false, 2)
  | loadArgument _ => some (true, 0)
  | branch => some (false, 0)
  | branchIf _ => some (false, 2)
  | call | phi | ret => none

/-- Name without condition and argument index. -/
def mnemonic : Instruction → String
  | add => "add"
  | sub => "sub"
  | mul => "mul"
  | div => "div"
  | divu => "divu"
  | and => "and"
  | or => "or"
  | xor => "xor"
  | not => "not"
  | neg => "neg"
  | shl => "shl"
  | sar => "sar"
  | shr => "shr"
  | copy => "copy"
  | compare _ => "cmp"
  | select => "select"
  | zeroExtend32 => "zext32"
  | signExtend32 => "sext32"
  | toFloat => "cvt_fp"
  | toInteger => "cvt_int"
  | load => "load"
  | store => "store"
  | loadArgument _ => "load_arg"
  | call => "call"
  | phi => "phi"
  | ret => "ret"
  | branch => "br"
  | branchIf _ => "br_if"

/-- The instruction of a mnemonic that stands alone. -/
def ofMnemonic? (name : String) : Option Instruction :=
  [add, sub, mul, div, divu, and, or, xor, not, neg, shl, sar, shr, copy, select, zeroExtend32,
    signExtend32, toFloat, toInteger, load, store, call, phi, ret, branch].find?
      (·.mnemonic = name)

end Instruction

end GraphJit
