import GraphJit.Proofs.AllocatedHomes
import GraphJit.X64.Decode

/-! # What homes hold

The home of a local is a register or a spill slot of the frame. This module says
what operands are worth in a state of the processor, and that writing one home leaves
all others alone, as long as homes are apart from each other and from the registers
that operations are computed in.
-/

namespace GraphJit

open X64 Code BitVec
open Gpr (rsp)

namespace Lowering

/-! ## Homes in the state of the processor -/

/-- The general purpose register of a name. -/
def gprOf (name : HostRegister) : Gpr := ⟨nibble name.id⟩

/-- The vector register of a name. -/
def xmmOf (name : HostRegister) : Xmm := ⟨nibble name.id⟩

theorem gprOf_nameOf (reg : Gpr) : gprOf (nameOf reg) = reg := by
  have hindex : nibble reg.index = reg.index :=
    Fin.ext (Nat.mod_eq_of_lt reg.index.isLt)
  exact congrArg Gpr.mk hindex

theorem nameOf_gprOf {name : HostRegister} (hname : isGpr name = true) :
    nameOf (gprOf name) = name := by
  rw [isGpr, Bool.and_eq_true, beq_iff_eq, decide_eq_true_eq] at hname
  rw [nameOf, gprOf, nibble, HostRegister.gp, ← hname.1]
  congr
  exact Nat.mod_eq_of_lt hname.2

namespace Target

/-- Where a spill slot is. -/
def slotAddress (target : Target) (cpu : Cpu) (slot : Nat) : BitVec 64 :=
  cpu.resolve ⟨rsp, BitVec.ofNat 32 (target.frame.callArgs + slot)⟩

/-- All bits of a home. -/
def content (target : Target) (cpu : Cpu) : Location → BitVec 128
  | .register name =>
    if name.isGp then (cpu.gpr (gprOf name)).setWidth 128 else cpu.xmm (xmmOf name)
  | .spill slot => (cpu.memory.read (target.slotAddress cpu slot) 8).setWidth 128

/-- The value of an integer operand at its own type, zero extended. -/
def valueOf (target : Target) (cpu : Cpu) : Operand → BitVec 64
  | .constant bits type => (Width.ofType type).cut bits
  | .register _ _ => 0
  | .localVar id type =>
    match target.allocation.location? id with
    | some home => (Width.ofType type).cut ((target.content cpu home).setWidth 64)
    | none => 0

/-- Write the low part of a word of a width to a home for integers. -/
def assign (target : Target) (cpu : Cpu) (width : Width) (value : BitVec 64) : Location → Cpu
  | .register name => cpu.setGpr (gprOf name) (width.cut value)
  | .spill slot =>
    { cpu with
      memory := cpu.memory.write (target.slotAddress cpu slot) width.bytes value }

end Target

/-- Registers that operations are computed in, or that the frame depends on. -/
def reserved : List Gpr := [Gpr.rax, Gpr.rcx, Gpr.rdx, rsp]

namespace Target

/-- Every local has a home of its own, outside the reserved registers or in the spill area. -/
structure Placed (target : Target) : Prop where
  apart : ∀ {id other : Nat} {home otherHome : Location}, id ≠ other →
    target.allocation.location? id = some home →
      target.allocation.location? other = some otherHome → Apart home otherHome
  registers : ∀ {id : Nat} {name : HostRegister},
    target.allocation.location? id = some (.register name) →
      (isGpr name = true ∧ gprOf name ∉ reserved) ∨ isXmm name = true
  slots : ∀ {id slot : Nat}, target.allocation.location? id = some (.spill slot) →
    slot + 8 ≤ target.frame.spill
  area : target.frame.callArgs + target.frame.spill ≤ twoPow 32

/-- A local whose home can hold an integer. -/
def HoldsInteger (target : Target) (id : Nat) (home : Location) : Prop :=
  target.allocation.location? id = some home ∧ ∀ name, home = .register name → isGpr name = true

/-- An integer operand that is a constant or has a home. -/
inductive Integral (target : Target) : Operand → Prop
  | constant (bits : BitVec 64) {type : ValueType} (htype : type.isInteger = true) :
      Integral target (.constant bits type)
  | localVar {id : Nat} {type : ValueType} {home : Location} (htype : type.isInteger = true)
      (hhome : target.HoldsInteger id home) : Integral target (.localVar id type)

end Target

/-! ## Scratch registers -/

/-- Two states that agree outside the accumulator, the count register and the flags. A division
also uses the data register. -/
structure Scratch (dividing : Bool) (before after : Cpu) : Prop where
  gpr : ∀ reg, reg ≠ Gpr.rax → reg ≠ Gpr.rcx →
    (reg = Gpr.rdx → dividing = false) → after.gpr reg = before.gpr reg
  xmm : after.xmm = before.xmm
  memory : after.memory = before.memory

namespace Scratch

variable {dividing : Bool} {first second third : Cpu}

theorem refl (cpu : Cpu) : Scratch dividing cpu cpu := ⟨fun _ _ _ _ => rfl, rfl, rfl⟩

theorem trans (h : Scratch dividing first second) (h' : Scratch dividing second third) :
    Scratch dividing first third where
  gpr reg hrax hrcx hrdx :=
    (h'.gpr reg hrax hrcx hrdx).trans (h.gpr reg hrax hrcx hrdx)
  xmm := h'.xmm.trans h.xmm
  memory := h'.memory.trans h.memory

theorem set (h : Scratch dividing first second) {reg : Gpr}
    (hreg : reg ∈ [Gpr.rax, Gpr.rcx]) (value : BitVec 64) :
    Scratch dividing first (second.setGpr reg value) where
  gpr other hrax hrcx hrdx := by
    rw [← h.gpr other hrax hrcx hrdx]
    apply HostState.gpr_set_of_ne
    rintro rfl
    simp [hrax, hrcx] at hreg
  xmm := h.xmm
  memory := h.memory

theorem flags (cpu : Cpu) (flags : Flags) : Scratch dividing cpu { cpu with flags } :=
  ⟨fun _ _ _ _ => rfl, rfl, rfl⟩

theorem resolve (h : Scratch dividing first second) (disp : BitVec 32) :
    second.resolve ⟨rsp, disp⟩ = first.resolve ⟨rsp, disp⟩ := by
  rw [HostState.resolve, HostState.resolve, h.gpr rsp (by decide) (by decide)
    fun heq => absurd heq (by decide)]

end Scratch

/-! ## Reading operands -/

theorem isGp_of_isGpr {name : HostRegister} (hname : isGpr name = true) : name.isGp = true := by
  rw [isGpr, Bool.and_eq_true] at hname
  exact hname.1

theorem isGp_of_isXmm {name : HostRegister} (hname : isXmm name = true) : name.isGp = false := by
  rw [isXmm, Bool.and_eq_true, beq_iff_eq] at hname
  rw [HostRegister.isGp, hname.1]
  rfl

namespace Target

variable {target : Target} {opnd : Operand} {dividing : Bool} {first second : Cpu} {id : Nat}
  {home : Location}

theorem content_register {name : HostRegister} (hname : isGpr name = true) (cpu : Cpu) :
    target.content cpu (.register name) = (cpu.gpr (gprOf name)).setWidth 128 := by
  rw [content, if_pos (isGp_of_isGpr hname)]

variable (hplaced : target.Placed)
include hplaced

theorem Placed.notMem_reserved {name : HostRegister} (hname : isGpr name = true)
    (hhome : target.allocation.location? id = some (.register name)) : gprOf name ∉ reserved := by
  rcases hplaced.registers hhome with ⟨-, hrsvd⟩ | hxmm
  · exact hrsvd
  · have hgp := isGp_of_isGpr hname
    rw [isGp_of_isXmm hxmm] at hgp
    cases hgp

/-- No home is in the scratch registers. -/
theorem content_scratch (hhome : target.allocation.location? id = some home)
    (h : Scratch dividing first second) :
    target.content second home = target.content first home := by
  cases home with
  | register name =>
    rcases hplaced.registers hhome with ⟨hname, hrsvd⟩ | hxmm
    · have hne := List.forall_mem_ne.mpr hrsvd
      rw [content_register hname, content_register hname, h.gpr _ (hne _ (by decide))
        (hne _ (by decide)) fun heq => absurd heq (hne _ (by decide))]
    · rw [content, content, isGp_of_isXmm hxmm, h.xmm]
      rfl
  | spill slot =>
    rw [content, content, slotAddress, h.resolve, h.memory]
    rfl

theorem valueOf_scratch (hintegral : target.Integral opnd) (h : Scratch dividing first second) :
    target.valueOf second opnd = target.valueOf first opnd := by
  cases hintegral with
  | constant bits htype => rfl
  | localVar htype hhome =>
    rw [valueOf, valueOf, hhome.1]
    dsimp only
    rw [content_scratch hplaced hhome.1 h]

theorem Placed.spillOffset_eq {slot : Nat}
    (hhome : target.allocation.location? id = some (.spill slot)) :
    target.frame.spillOffset slot = .ok (BitVec.ofNat 32 (target.frame.callArgs + slot)) := by
  have hslot := hplaced.slots hhome
  have harea := hplaced.area
  rw [Frame.spillOffset, wordSize, if_pos (by omega)]
  rfl

end Target

theorem exists_integerOf {type : ValueType} (htype : type.isInteger = true) :
    ∃ width, type = integerOf width := by
  cases type with
  | i32 => exact ⟨.w32, rfl⟩
  | i64 => exact ⟨.w64, rfl⟩
  | f32 | f64 => cases htype

theorem setWidth_signExtend (value : BitVec 32) : (value.signExtend 64).setWidth 32 = value := by
  ext j hj
  rw [getElem_setWidth, getLsbD_signExtend]
  simp [hj, show j < 64 by omega]

namespace Target

variable {target : Target} {opnd : Operand}

theorem exists_fetch (hplaced : target.Placed) (hintegral : target.Integral opnd) (dst : Gpr) :
    ∃ instr, target.fetch false opnd (nameOf dst) = .ok [.instr instr] ∧
      ∀ (host : Host) (cpu : Cpu),
      host.exec cpu instr = some (cpu.setGpr dst (target.valueOf cpu opnd)) := by
  cases hintegral with
  | @constant bits type htype =>
    cases type with
    | i32 =>
      refine ⟨.movImm32 dst (((bits.setWidth 32).signExtend 64).setWidth 32), ?_, fun _ cpu => ?_⟩
      · change emit (Assembler.movImm .w32 (nameOf dst) _) = _
        rw [Assembler.movImm, word_nameOf]
        rfl
      · rw [setWidth_signExtend]
        rfl
    | i64 =>
      refine ⟨.movImm64 dst bits, ?_, fun _ cpu => rfl⟩
      change emit (Assembler.movImm .w64 (nameOf dst) _) = _
      rw [Assembler.movImm, word_nameOf]
      rfl
    | f32 | f64 => cases htype
  | @localVar id type home htype hhome =>
    obtain ⟨width, rfl⟩ := exists_integerOf htype
    have hvalue (cpu : Cpu) : target.valueOf cpu (.localVar id (integerOf width))
        = width.cut ((target.content cpu home).setWidth 64) := by
      rw [valueOf, hhome.1, ofType_integerOf]
    cases home with
    | register name =>
      have hname := hhome.2 name rfl
      refine ⟨.mov width dst (gprOf name), ?_, fun _ cpu => ?_⟩
      · apply fetch_register
        rw [nameOf_gprOf hname]
        exact hhome.1
      · rw [hvalue, content_register hname, setWidth_setWidth_of_le _ (by decide),
          setWidth_eq]
        rfl
    | spill slot =>
      refine ⟨.load width dst ⟨rsp, BitVec.ofNat 32 (target.frame.callArgs + slot)⟩,
        fetch_slot hhome.1 (hplaced.spillOffset_eq hhome.1) width dst, fun _ cpu => ?_⟩
      rw [hvalue, content, setWidth_setWidth_of_le _ (by decide), setWidth_eq,
        ← Memory.read_bytes]
      rfl

theorem exists_keep (hplaced : target.Placed) {id : Nat} {type : ValueType} {home : Location}
    (htype : type.isInteger = true) (hhome : target.HoldsInteger id home) (src : Gpr) :
    ∃ instr, target.keep false (.localVar id type) (nameOf src) = .ok [.instr instr] ∧
      ∀ (host : Host) (cpu : Cpu), host.exec cpu instr
        = some (target.assign cpu (Width.ofType type) (cpu.gpr src) home) := by
  obtain ⟨width, rfl⟩ := exists_integerOf htype
  rw [ofType_integerOf]
  cases home with
  | register name =>
    refine ⟨.mov width (gprOf name) src, ?_, fun _ cpu => rfl⟩
    apply keep_register
    rw [nameOf_gprOf (hhome.2 name rfl)]
    exact hhome.1
  | spill slot =>
    exact ⟨.store width ⟨rsp, BitVec.ofNat 32 (target.frame.callArgs + slot)⟩ src,
      keep_slot hhome.1 (hplaced.spillOffset_eq hhome.1) width src, fun _ cpu => rfl⟩

end Target

end Lowering

/-! ## Writing homes -/

namespace X64

theorem Memory.read_congr {memory other : Memory} {addr : BitVec 64} {count : Nat}
    (h : ∀ i < count, memory (addr + BitVec.ofNat 64 i) = other (addr + BitVec.ofNat 64 i)) :
    memory.read addr count = other.read addr count := by
  induction count with
  | zero => rfl
  | succ count ih =>
    rw [read, read, ih fun i hi => h i (Nat.lt_succ_of_lt hi), h count (Nat.lt_succ_self count)]

/-- Displacements are signed, so that the upper half of them lies below the base. -/
theorem toNat_signExtend_ofNat {disp : Nat} (hbound : disp < 2 ^ 32) :
    ((BitVec.ofNat 32 disp).signExtend 64).toNat
      = if disp < 2 ^ 31 then disp else disp + (2 ^ 64 - 2 ^ 32) := by
  rw [toNat_signExtend, toNat_setWidth, msb_eq_decide, toNat_ofNat,
    Nat.mod_eq_of_lt hbound, Nat.mod_eq_of_lt (by omega)]
  split <;> split <;> simp_all
  omega

/-- Words at displacements that differ by eight or more have no bytes in common. -/
theorem apart_of_displacements {base : BitVec 64} {d e : Nat} (hd : d + 8 ≤ 2 ^ 32)
    (he : e + 8 ≤ 2 ^ 32) (hapart : d + 8 ≤ e ∨ e + 8 ≤ d) {i : Nat} (hi : i < 8) :
    8 ≤ (base + (BitVec.ofNat 32 d).signExtend 64 + BitVec.ofNat 64 i
      - (base + (BitVec.ofNat 32 e).signExtend 64)).toNat := by
  have hd' := toNat_signExtend_ofNat (show d < 2 ^ 32 by omega)
  have he' := toNat_signExtend_ofNat (show e < 2 ^ 32 by omega)
  rw [toNat_sub, toNat_add, toNat_add, toNat_add, hd', he', toNat_ofNat]
  split <;> split <;> omega

theorem Width.setWidth_cut (width : Width) (value : BitVec 64) :
    (width.cut value).setWidth width.bits = value.setWidth width.bits := by
  cases width with
  | w32 => exact (setWidth_setWidth_of_le _ (by decide)).trans (setWidth_eq _)
  | w64 => rfl

theorem Width.setWidth_overwrite (width : Width) (old value : BitVec 64) :
    (width.overwrite old value).setWidth width.bits = value.setWidth width.bits := by
  cases width with
  | w32 => exact setWidth_append_eq_right
  | w64 => rfl

end X64

namespace Lowering

variable {target : Target} {id : Nat} {home : Location} {width : Width}

namespace Target

section

variable (hplaced : target.Placed) (hhome : target.HoldsInteger id home)
include hplaced hhome

theorem slotAddress_assign (cpu : Cpu) (value : BitVec 64) (slot : Nat) :
    target.slotAddress (target.assign cpu width value home) slot = target.slotAddress cpu slot := by
  cases home with
  | spill _ => rfl
  | register name =>
    have hrsvd := hplaced.notMem_reserved (hhome.2 name rfl) hhome.1
    have hrsp : rsp ≠ gprOf name := fun heq => hrsvd (by rw [← heq]; decide)
    rw [slotAddress, slotAddress, HostState.resolve, HostState.resolve]
    exact congrArg (· + _) (HostState.gpr_set_of_ne hrsp ..)

/-- Writing one home leaves the homes apart from it alone. -/
theorem content_assign_of_apart {other : Nat} {otherHome : Location} (hne : id ≠ other)
    (hother : target.allocation.location? other = some otherHome) (cpu : Cpu) (value : BitVec 64) :
    target.content (target.assign cpu width value home) otherHome
      = target.content cpu otherHome := by
  have hapart := hplaced.apart hne hhome.1 hother
  have haddr := @slotAddress_assign target id home width hplaced hhome cpu value
  cases otherHome with
  | register otherName =>
    cases home with
    | spill slot => rfl
    | register name =>
      rcases hplaced.registers hother with ⟨hotherName, -⟩ | hxmm
      · have hgpr : gprOf otherName ≠ gprOf name := by
          intro heq
          apply hapart
          rw [← nameOf_gprOf (hhome.2 name rfl), ← heq, nameOf_gprOf hotherName]
        rw [content_register hotherName, content_register hotherName]
        exact congrArg _ (HostState.gpr_set_of_ne hgpr ..)
      · rw [content, content, isGp_of_isXmm hxmm]
        rfl
  | spill otherSlot =>
    rw [content, content, haddr]
    cases home with
    | register name => rfl
    | spill slot =>
      have hslot := hplaced.slots hhome.1
      have hotherSlot := hplaced.slots hother
      have harea : target.frame.callArgs + target.frame.spill ≤ 2 ^ 32 := hplaced.area
      have hbytes : width.bytes ≤ 8 := by cases width <;> decide
      have hapart : slot + 8 ≤ otherSlot ∨ otherSlot + 8 ≤ slot := hapart
      apply congrArg
      apply Memory.read_congr
      intro i hi
      have hfar := @apart_of_displacements (cpu.gpr rsp)
        (target.frame.callArgs + otherSlot) (target.frame.callArgs + slot) (by omega) (by omega)
        (by omega) i hi
      exact if_neg (Nat.not_lt.mpr (Nat.le_trans hbytes hfar))

theorem content_assign_self (cpu : Cpu) (value : BitVec 64) :
    (target.content (target.assign cpu width value home) home).setWidth width.bits
      = value.setWidth width.bits := by
  have hwidth : width.bits ≤ 128 := by cases width <;> decide
  have haddr := @slotAddress_assign target id home width hplaced hhome cpu value
  cases home with
  | register name =>
    rw [content_register (hhome.2 name rfl), setWidth_setWidth_of_le _ hwidth,
      ← width.setWidth_cut value]
    exact congrArg _ (HostState.gpr_set_self ..)
  | spill slot =>
    rw [content, setWidth_setWidth_of_le _ hwidth, haddr, assign, Memory.read_write,
      width.setWidth_overwrite]

end

end Target

end Lowering

end GraphJit
