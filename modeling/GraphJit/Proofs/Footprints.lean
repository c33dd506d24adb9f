import GraphJit.Proofs.Processor
import GraphJit.Proofs.Storage

/-! # Footprints of instructions

For every instruction this module says which registers it writes, which bytes it
stores, and whether it always goes on. Everything else is left alone, whatever the
host does where the description of the processor is open.
-/

namespace GraphJit

open X64 List

/-- The name of a vector register. -/
def Lowering.vectorNameOf (reg : Xmm) : HostRegister := .xmm reg.index

namespace X64

open Lowering (nameOf vectorNameOf)

/-- Whether an operation writes its result, and not the flags alone. -/
def AluOp.writes : AluOp → Bool
  | cmp | test => false
  | _ => true

namespace Instr

/-- Registers that an instruction itself writes. -/
def written : Instr → List HostRegister
  | .mov _ dst _ | .movImm32 dst _ | .movImm64 dst _ | .load _ dst _ | .imul _ dst _
  | .shift _ _ dst | .setcc _ dst | .alu8 _ dst _ | .movzx8 dst _ | .movsxd dst _
  | .cvtFpToInt _ _ dst _ => [nameOf dst]
  | .alu op _ dst _ | .aluImm op _ dst _ => if op.writes then [nameOf dst] else []
  | .unary .not _ reg | .unary .neg _ reg => [nameOf reg]
  | .unary .idiv _ _ | .unary .div _ _ => [.rax, .rdx]
  | .signExtendAccumulator _ => [.rdx]
  | .push _ | .ret => [.rsp]
  | .pop reg => [nameOf reg, .rsp]
  | .fpMov dst _ | .fpXor dst _ | .fpLoad _ dst _ | .fpBinary _ _ dst _ | .movToXmm _ dst _
  | .cvtIntToFp _ _ dst _ | .cvtFpToFp _ dst _ | .restoreXmm dst _ => [vectorNameOf dst]
  | .store .. | .fpStore .. | .fpCompare .. | .saveXmm .. | .callReg _ | .jmp _ | .jcc _ _ => []

/-- The bytes that an instruction stores: where they start, and how many there are. -/
def stored? : Instr → Option (Address × Nat)
  | .store width target _ | .fpStore width target _ => some (target, width.bytes)
  | .saveXmm target _ => some (target, 16)
  | _ => none

/-- Whether an instruction goes on with the next one in every state. -/
def isTotal : Instr → Bool
  | .unary .idiv _ _ | .unary .div _ _ | .callReg _ | .ret | .jmp _ | .jcc _ _ => false
  | _ => true

/-- Whether an instruction decides where control goes. -/
def isControl : Instr → Bool
  | .ret | .jmp _ | .jcc _ _ => true
  | _ => false

/-- Whether the effect of an instruction is that of its footprint alone. -/
def isLocal : Instr → Bool
  | .push _ | .callReg _ => false
  | _ => true

end Instr

theorem Host.exists_exec (host : Host) (cpu : Cpu) {instr : Instr} (htotal : instr.isTotal = true) :
    ∃ next, host.exec cpu instr = some next := by
  cases instr with
  | unary op width reg =>
    cases op with
    | not | neg => exact ⟨_, rfl⟩
    | idiv | div => cases htotal
  | callReg | ret | jmp | jcc => cases htotal
  | _ => exact ⟨_, rfl⟩

/-- A state that differs in some registers and some bytes of memory only. -/
structure Kept (written : List HostRegister) (stored? : Option (Address × Nat))
    (before after : Cpu) : Prop where
  gpr : ∀ reg, nameOf reg ∉ written → after.gpr reg = before.gpr reg
  xmm : ∀ reg, vectorNameOf reg ∉ written → after.xmm reg = before.xmm reg
  memory : ∀ addr, (∀ place bytes, stored? = some (place, bytes) →
    bytes ≤ (addr - before.resolve place).toNat) → after.memory addr = before.memory addr

namespace Kept

variable {written : List HostRegister} {stored? : Option (Address × Nat)} {before after : Cpu}

theorem of_flags (h : Kept written stored? before after) (flags : Flags) :
    Kept written stored? before { after with flags } :=
  ⟨h.gpr, h.xmm, h.memory⟩

theorem refl (cpu : Cpu) : Kept written stored? cpu cpu :=
  ⟨fun _ _ => rfl, fun _ _ => rfl, fun _ _ => rfl⟩

theorem setGpr (h : Kept written stored? before after) (reg : Gpr)
    (hwritten : nameOf reg ∈ written) (value : BitVec 64) :
    Kept written stored? before (after.setGpr reg value) where
  gpr other hother := by
    have hne : other ≠ reg := by
      rintro rfl
      exact hother hwritten
    rw [← h.gpr other hother]
    exact HostState.gpr_set_of_ne hne ..
  xmm := h.xmm
  memory := h.memory

theorem setXmm (h : Kept written stored? before after) {reg : Xmm}
    (hwritten : vectorNameOf reg ∈ written) (value : BitVec 128) :
    Kept written stored? before (after.setXmm reg value) where
  gpr := h.gpr
  xmm other hother := by
    have hne : other ≠ reg := by
      rintro rfl
      exact hother hwritten
    rw [← h.xmm other hother]
    exact if_neg hne
  memory := h.memory

theorem write (cpu : Cpu) (place : Address) (bytes : Nat) (value : BitVec 64) :
    Kept written (some (place, bytes)) cpu
      { cpu with memory := cpu.memory.write (cpu.resolve place) bytes value } where
  gpr _ _ := rfl
  xmm _ _ := rfl
  memory _ haddr := if_neg (Nat.not_lt.mpr (haddr place bytes rfl))

theorem storeVector (cpu : Cpu) (place : Address) (value : BitVec 128) :
    Kept written (some (place, 16)) cpu (cpu.storeVector (cpu.resolve place) value) where
  gpr _ _ := rfl
  xmm _ _ := rfl
  memory addr haddr := by
    have hfar := haddr place 16 rfl
    have hhigh : 8 ≤ (addr - (cpu.resolve place + 8)).toNat := by bv_omega
    have hlow : 8 ≤ (addr - cpu.resolve place).toNat := by omega
    exact (if_neg (Nat.not_lt.mpr hhigh)).trans (if_neg (Nat.not_lt.mpr hlow))

theorem arithmetic (cpu : Cpu) {op : AluOp} {reg : Gpr} (width : Width)
    (value : BitVec width.bits) : Kept (if op.writes then [nameOf reg] else []) stored? cpu
      (cpu.arithmetic op width reg value) := by
  cases op with
  | cmp | test => exact (refl cpu).of_flags _
  | _ => exact ((refl cpu).of_flags _).setGpr _ mem_cons_self _

end Kept

/-- An instruction changes nothing outside its footprint. -/
theorem Host.kept_of_exec {host : Host} {cpu next : Cpu} {instr : Instr}
    (hlocal : instr.isLocal = true) (hexec : host.exec cpu instr = some next) :
    Kept instr.written instr.stored? cpu next := by
  have hrefl : Kept instr.written instr.stored? cpu cpu := .refl cpu
  cases instr with
  | push | callReg => cases hlocal
  | ret | jmp | jcc => cases hexec
  | mov | movImm32 | movImm64 | load | imul | shift | movzx8 | movsxd | setcc | alu8 | cvtFpToInt =>
    cases hexec
    exact (hrefl.setGpr _ mem_cons_self _).of_flags _
  | signExtendAccumulator width =>
    cases hexec
    exact hrefl.setGpr Gpr.rdx mem_cons_self _
  | store width target src =>
    cases hexec
    exact .write ..
  | fpStore =>
    cases hexec
    exact .write ..
  | saveXmm =>
    cases hexec
    exact .storeVector ..
  | alu | aluImm =>
    cases hexec
    exact .arithmetic ..
  | unary op width reg =>
    cases op with
    | not | neg =>
      cases hexec
      exact (hrefl.setGpr _ mem_cons_self _).of_flags _
    | idiv | div =>
      obtain ⟨divided, hdivide, rfl⟩ := Option.map_eq_some_iff.mp hexec
      obtain ⟨parts, -, rfl⟩ := Option.map_eq_some_iff.mp hdivide
      have hquotient := hrefl.setGpr Gpr.rax mem_cons_self (parts.1.setWidth 64)
      exact (hquotient.setGpr Gpr.rdx (.tail _ mem_cons_self) _).of_flags _
  | pop reg =>
    cases hexec
    have hstack := hrefl.setGpr Gpr.rsp (.tail _ mem_cons_self) (cpu.gpr Gpr.rsp + 8)
    exact hstack.setGpr _ mem_cons_self _
  | fpCompare =>
    cases hexec
    exact hrefl.of_flags _
  | fpMov | fpXor | fpLoad | fpBinary | movToXmm | cvtIntToFp | cvtFpToFp | restoreXmm =>
    cases hexec
    exact hrefl.setXmm mem_cons_self _

end X64

end GraphJit
