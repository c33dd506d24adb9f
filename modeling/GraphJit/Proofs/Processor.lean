import GraphJit.Proofs.HostMachine
import Mathlib.Algebra.Group.Nat.Defs

/-! # The processor

All instructions are given a meaning on a state of registers, flags, vector
registers and memory. What the description leaves open is a parameter, the host:
the results of float instructions, the flags that some instructions leave
undefined, and what a called function does. Everything that is proved about code
holds for every host.
-/

namespace GraphJit

open BitVec

/-- Whether a comparison holds of two integers. -/
def Comparison.holds {n : Nat} (a b : BitVec n) : Comparison → Bool
  | eq => a == b
  | ne => a != b
  | ge => b.sle a
  | le => a.sle b
  | gt => b.slt a
  | lt => a.slt b
  | geu => b.ule a
  | leu => a.ule b
  | gtu => b.ult a
  | ltu => a.ult b

namespace X64

/-! ## Flags -/

structure Flags where
  carry : Bool
  zero : Bool
  sign : Bool
  overflow : Bool
  parity : Bool
deriving DecidableEq, Repr

namespace Flags

variable {n : Nat}

/-- The flags of a result that cannot carry or overflow. Parity is that of the low byte. -/
def ofResult (result : BitVec n) : Flags where
  carry := false
  zero := result == 0#n
  sign := result.msb
  overflow := false
  parity := (List.range 8).countP (fun bit => result.getLsbD bit) % 2 == 0

def ofAdd (a b : BitVec n) : Flags :=
  { ofResult (a + b) with carry := a.uaddOverflow b, overflow := a.saddOverflow b }

def ofSub (a b : BitVec n) : Flags :=
  { ofResult (a - b) with carry := a.ult b, overflow := a.ssubOverflow b }

end Flags

/-- Whether a condition holds of the flags. -/
def Condition.holds (flags : Flags) : Condition → Bool
  | overflow => flags.overflow
  | notOverflow => !flags.overflow
  | below => flags.carry
  | aboveOrEqual => !flags.carry
  | equal => flags.zero
  | notEqual => !flags.zero
  | belowOrEqual => flags.carry || flags.zero
  | above => !(flags.carry || flags.zero)
  | sign => flags.sign
  | notSign => !flags.sign
  | parityEven => flags.parity
  | parityOdd => !flags.parity
  | less => flags.sign != flags.overflow
  | greaterOrEqual => !(flags.sign != flags.overflow)
  | lessOrEqual => flags.zero || (flags.sign != flags.overflow)
  | greater => !(flags.zero || (flags.sign != flags.overflow))

section Comparisons

variable {n : Nat} (a b : BitVec n)

theorem sub_beq_zero : (a - b == 0#n) = (a == b) := by
  rw [Bool.eq_iff_iff, beq_iff_eq, beq_iff_eq, BitVec.sub_eq_iff_eq_add, BitVec.zero_add]

/-- The sign of a difference differs from its overflow exactly if the first is less. -/
theorem sign_ne_overflow : ((a - b).msb != a.ssubOverflow b) = a.slt b := by
  rw [msb_eq_toInt, toInt_sub, slt_eq_decide, BitVec.ssubOverflow]
  rcases n with - | n
  · simp [of_length_zero]
  have ha := a.le_toInt
  have ha' := a.toInt_lt
  have hb := b.le_toInt
  have hb' := b.toInt_lt
  have hhalf : (2 ^ n : Int) = (2 ^ n : Nat) := by simp
  rw [Nat.add_sub_cancel, hhalf] at ha ha' hb hb' ⊢
  rw [Nat.pow_succ]
  generalize (2 ^ n : Nat) = half at *
  generalize a.toInt = x at *
  generalize b.toInt = y at *
  by_cases hover : x - y ≥ half
  · rw [← Int.sub_bmod_right, Int.bmod_eq_of_le (by omega) (by omega), decide_eq_true hover,
      decide_eq_true (show x - y - ↑(half * 2) < 0 by omega),
      decide_eq_false (show ¬x < y by omega)]
    rfl
  · by_cases hunder : x - y < -half
    · rw [← Int.add_bmod_right, Int.bmod_eq_of_le (by omega) (by omega), decide_eq_true hunder,
        decide_eq_false hover, decide_eq_false (show ¬x - y + ↑(half * 2) < 0 by omega),
        decide_eq_true (show x < y by omega)]
      rfl
    · have hless : x - y < 0 ↔ x < y := by omega
      rw [Int.bmod_eq_of_le (by omega) (by omega), decide_eq_false hunder, decide_eq_false hover,
        decide_eq_decide.mpr hless]
      exact Bool.bne_false _

theorem beq_or_slt : (a == b || a.slt b) = a.sle b := by
  rw [Bool.eq_iff_iff, Bool.or_eq_true, beq_iff_eq, slt_eq_decide, sle_eq_decide,
    decide_eq_true_eq, decide_eq_true_eq, ← toInt_inj]
  omega

theorem ult_or_beq : (a.ult b || a == b) = a.ule b := by
  rw [Bool.eq_iff_iff, Bool.or_eq_true, beq_iff_eq, ult_eq_decide, ule_eq_decide,
    decide_eq_true_eq, decide_eq_true_eq, ← toNat_inj]
  omega

/-- After a comparison of two integers the condition of a comparison holds exactly if the
comparison does. -/
theorem Condition.holds_ofIntegers (comparison : Comparison) :
    (ofIntegers comparison).holds (Flags.ofSub a b) = comparison.holds a b := by
  have hzero : (Flags.ofSub a b).zero = (a == b) := sub_beq_zero a b
  have hless : ((Flags.ofSub a b).sign != (Flags.ofSub a b).overflow) = a.slt b :=
    sign_ne_overflow a b
  have hcarry : (Flags.ofSub a b).carry = a.ult b := rfl
  cases comparison with
  | eq => exact hzero
  | ne => exact congrArg not hzero
  | ge => rw [ofIntegers, holds, hless, ← sle_eq_not_slt]; rfl
  | le => rw [ofIntegers, holds, hless, hzero, beq_or_slt]; rfl
  | gt => rw [ofIntegers, holds, hless, hzero, beq_or_slt, sle_eq_not_slt, Bool.not_not]; rfl
  | lt => exact hless
  | geu => rw [ofIntegers, holds, hcarry, ← ule_eq_not_ult]; rfl
  | leu => rw [ofIntegers, holds, hcarry, hzero, ult_or_beq]; rfl
  | gtu => rw [ofIntegers, holds, hcarry, hzero, ult_or_beq, ule_eq_not_ult, Bool.not_not]; rfl
  | ltu => exact hcarry

end Comparisons

/-! ## States -/

/-- Bits of a word of a width. -/
abbrev Width.bits : Width → Nat
  | .w32 => 32
  | .w64 => 64

/-- The other of the two widths. -/
def Width.other : Width → Width
  | .w32 => .w64
  | .w64 => .w32

/-- The count register. -/
def Gpr.rcx : Gpr := ⟨⟨1, by decide⟩⟩

/-- The data register. -/
def Gpr.rdx : Gpr := ⟨⟨2, by decide⟩⟩

/-- A register with other bits at its low end. -/
def replaceLow {n m : Nat} (old : BitVec n) (low : BitVec m) : BitVec n :=
  (old >>> m <<< m) ||| low.setWidth n

/-- The state of the processor. -/
structure Cpu extends HostState where
  xmm : Xmm → BitVec 128
  flags : Flags

namespace Cpu

def setGpr (cpu : Cpu) (reg : Gpr) (value : BitVec 64) : Cpu :=
  { cpu with toHostState := cpu.toHostState.set reg value }

def setXmm (cpu : Cpu) (reg : Xmm) (value : BitVec 128) : Cpu :=
  { cpu with xmm := fun other => if other = reg then value else cpu.xmm other }

/-- The part of a register that an operation of a width sees. -/
def get (cpu : Cpu) (width : Width) (reg : Gpr) : BitVec width.bits :=
  (cpu.gpr reg).setWidth width.bits

/-- Write the result of an operation of a width. The rest of the register becomes zero. -/
def put (cpu : Cpu) (width : Width) (reg : Gpr) (value : BitVec width.bits) : Cpu :=
  cpu.setGpr reg (value.setWidth 64)

/-- Write the low byte of a register. -/
def putByte (cpu : Cpu) (reg : Gpr) (value : BitVec 8) : Cpu :=
  cpu.setGpr reg (replaceLow (cpu.gpr reg) value)

/-- The scalar in the lowest lane of a vector register. -/
def scalar (cpu : Cpu) (width : Width) (reg : Xmm) : BitVec width.bits :=
  (cpu.xmm reg).setWidth width.bits

/-- Write a scalar. The rest of the vector register is kept. -/
def putScalar (cpu : Cpu) (width : Width) (reg : Xmm) (value : BitVec width.bits) : Cpu :=
  cpu.setXmm reg (replaceLow (cpu.xmm reg) value)

end Cpu

/-- What the description of the processor leaves open: float arithmetic, flags that are
undefined, and the state in which a called function returns, if it does. -/
structure Host where
  floatBinary : FloatOp → (width : Width) → BitVec width.bits → BitVec width.bits →
    BitVec width.bits
  floatFlags : (width : Width) → BitVec width.bits → BitVec width.bits → Flags
  intToFloat : (int float : Width) → BitVec int.bits → BitVec float.bits
  floatToInt : (int float : Width) → BitVec float.bits → BitVec int.bits
  floatToFloat : (target : Width) → BitVec target.other.bits → BitVec target.bits
  flagsAfter : Instr → Cpu → Flags
  call : BitVec 64 → Cpu → Option Cpu

/-! ## Instructions -/

/-- The result of an operation, if it has one beside the flags. -/
def AluOp.result? {n : Nat} (a b : BitVec n) : AluOp → Option (BitVec n)
  | add => some (a + b)
  | sub => some (a - b)
  | and => some (a &&& b)
  | or => some (a ||| b)
  | xor => some (a ^^^ b)
  | cmp | test => none

def AluOp.flags {n : Nat} (a b : BitVec n) : AluOp → Flags
  | add => .ofAdd a b
  | sub | cmp => .ofSub a b
  | and | test => .ofResult (a &&& b)
  | or => .ofResult (a ||| b)
  | xor => .ofResult (a ^^^ b)

def ByteOp.result (a b : BitVec 8) : ByteOp → BitVec 8
  | and => a &&& b
  | or => a ||| b

def ShiftOp.result {n : Nat} (value : BitVec n) (count : Nat) : ShiftOp → BitVec n
  | shl => value <<< count
  | sar => value.sshiftRight count
  | shr => value >>> count

/-- Quotient and remainder of a double word, unless the quotient is no word. -/
def quotient? {n : Nat} (signed : Bool) (dividend : BitVec (n + n)) (divisor : BitVec n) :
    Option (BitVec n × BitVec n) :=
  if divisor = 0#n then none
  else if signed then
    let quotient := dividend.toInt.tdiv divisor.toInt
    if (BitVec.ofInt n quotient).toInt = quotient then
      some (BitVec.ofInt n quotient, BitVec.ofInt n (dividend.toInt.tmod divisor.toInt))
    else none
  else
    let quotient := dividend.toNat / divisor.toNat
    if quotient < 2 ^ n then
      some (BitVec.ofNat n quotient, BitVec.ofNat n (dividend.toNat % divisor.toNat))
    else none

namespace Cpu

/-- An operation between a register and a word. -/
def arithmetic (cpu : Cpu) (op : AluOp) (width : Width) (dst : Gpr) (b : BitVec width.bits) : Cpu :=
  let flagged := { cpu with flags := op.flags (cpu.get width dst) b }
  match op.result? (cpu.get width dst) b with
  | some value => flagged.put width dst value
  | none => flagged

/-- Divide the accumulator pair. Where the quotient is no word, the processor traps. -/
def divide (cpu : Cpu) (signed : Bool) (width : Width) (divisor : Gpr) : Option Cpu :=
  (quotient? signed (cpu.get width Gpr.rdx ++ cpu.get width Gpr.rax) (cpu.get width divisor)).map
    fun (quotient, remainder) => (cpu.put width Gpr.rax quotient).put width Gpr.rdx remainder

/-- Whole vector registers go to memory as two words. -/
def storeVector (cpu : Cpu) (addr : BitVec 64) (value : BitVec 128) : Cpu :=
  { cpu with
    memory := (cpu.memory.write addr 8 (value.setWidth 64)).write (addr + 8) 8
      (value.extractLsb' 64 64) }

def loadVector (cpu : Cpu) (addr : BitVec 64) : BitVec 128 :=
  cpu.memory.read (addr + 8) 8 ++ cpu.memory.read addr 8

def push (cpu : Cpu) (value : BitVec 64) : Cpu := let addr := cpu.gpr Gpr.rsp - 8
  { cpu.setGpr Gpr.rsp addr with memory := cpu.memory.write addr 8 value }

/-- The word on top of the stack, and the state without it. -/
def pop (cpu : Cpu) : BitVec 64 × Cpu :=
  (cpu.memory.read (cpu.gpr Gpr.rsp) 8, cpu.setGpr Gpr.rsp (cpu.gpr Gpr.rsp + 8))

end Cpu

namespace Host

/-- The state after an instruction that goes on with the next one. -/
def exec (host : Host) (cpu : Cpu) (instr : Instr) : Option Cpu := match instr with
  | .mov .. | .movImm32 .. | .movImm64 .. | .load .. | .store .. =>
    (cpu.toHostState.step instr).map fun state => { cpu with toHostState := state }
  | .alu op width dst src => some (cpu.arithmetic op width dst (cpu.get width src))
  | .aluImm op width dst value => some (cpu.arithmetic op width dst (value.signExtend width.bits))
  | .imul width dst src =>
    some { cpu.put width dst (cpu.get width dst * cpu.get width src) with
      flags := host.flagsAfter instr cpu }
  | .shift op width dst =>
    -- only the low byte counts, modulo the width
    let count := ((cpu.gpr Gpr.rcx).setWidth 8).toNat % width.bits
    some { cpu.put width dst (op.result (cpu.get width dst) count) with
      flags := host.flagsAfter instr cpu }
  | .unary .not width reg => some (cpu.put width reg (~~~cpu.get width reg))
  | .unary .neg width reg =>
    some { cpu.put width reg (-cpu.get width reg) with
      flags := .ofSub 0 (cpu.get width reg) }
  | .unary .idiv width reg =>
    (cpu.divide true width reg).map ({ · with flags := host.flagsAfter instr cpu })
  | .unary .div width reg =>
    (cpu.divide false width reg).map ({ · with flags := host.flagsAfter instr cpu })
  | .signExtendAccumulator width =>
    some (cpu.put width Gpr.rdx
      (if (cpu.get width Gpr.rax).msb then BitVec.allOnes width.bits else 0))
  | .setcc cond dst =>
    some (cpu.putByte dst (if cond.holds cpu.flags then 1 else 0))
  | .alu8 op dst src =>
    let value := op.result ((cpu.gpr dst).setWidth 8) ((cpu.gpr src).setWidth 8)
    some { cpu.putByte dst value with flags := .ofResult value }
  | .movzx8 dst src => some (cpu.setGpr dst (((cpu.gpr src).setWidth 8).setWidth 64))
  | .movsxd dst src => some (cpu.setGpr dst (((cpu.gpr src).setWidth 32).signExtend 64))
  | .push reg => some (cpu.push (cpu.gpr reg))
  | .pop reg => some (cpu.pop.2.setGpr reg cpu.pop.1)
  | .callReg reg => host.call (cpu.gpr reg) cpu
  | .fpMov dst src => some (cpu.setXmm dst (cpu.xmm src))
  | .fpXor dst src => some (cpu.setXmm dst (cpu.xmm dst ^^^ cpu.xmm src))
  | .fpLoad width dst source =>
    some (cpu.setXmm dst ((cpu.memory.read (cpu.resolve source) width.bytes).setWidth 128))
  | .fpStore width target src =>
    some { cpu with
      memory := cpu.memory.write (cpu.resolve target) width.bytes
        ((cpu.xmm src).setWidth 64) }
  | .fpBinary op width dst src =>
    some (cpu.putScalar width dst
      (host.floatBinary op width (cpu.scalar width dst) (cpu.scalar width src)))
  | .fpCompare width a b =>
    some { cpu with flags := host.floatFlags width (cpu.scalar width a) (cpu.scalar width b) }
  | .movToXmm width dst src => some (cpu.setXmm dst ((cpu.get width src).setWidth 128))
  | .cvtIntToFp int float dst src =>
    some (cpu.putScalar float dst (host.intToFloat int float (cpu.get int src)))
  | .cvtFpToInt int float dst src =>
    some (cpu.put int dst (host.floatToInt int float (cpu.scalar float src)))
  | .cvtFpToFp target dst src =>
    some (cpu.putScalar target dst (host.floatToFloat target (cpu.scalar target.other src)))
  | .saveXmm target src => some (cpu.storeVector (cpu.resolve target) (cpu.xmm src))
  | .restoreXmm dst source => some (cpu.setXmm dst (cpu.loadVector (cpu.resolve source)))
  | .ret | .jmp _ | .jcc _ _ => none

end Host

end X64

end GraphJit
