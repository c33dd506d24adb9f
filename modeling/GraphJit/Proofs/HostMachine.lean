import GraphJit.Code.Stream
import Mathlib.Tactic.Common

/-! # The host machine

A host state is the general purpose registers and a memory of bytes. The
instructions that move words between registers and memory are given a meaning
here, and straight code of such instructions is run on a state. A word of
32 bits that is written to a register clears the upper half of the register; one
that is written to memory leaves the bytes after it alone.
-/

namespace GraphJit.X64

open BitVec

/-- Bytes of a word of a width. -/
def Width.bytes : Width → Nat
  | .w32 => 4
  | .w64 => 8

/-- The part of a word that an operation of a width sees, zero extended. -/
def Width.cut : Width → BitVec 64 → BitVec 64
  | .w32, value => (value.setWidth 32).setWidth 64
  | .w64, value => value

/-- A word of which an operation of a width overwrites its own part. -/
def Width.overwrite : Width → BitVec 64 → BitVec 64 → BitVec 64
  | .w32, old, value => old.extractLsb' 32 32 ++ value.setWidth 32
  | .w64, _, value => value

theorem Width.getLsbD_cut (width : Width) (value : BitVec 64) (j : Nat) :
    (width.cut value).getLsbD j = (decide (j < 8 * width.bytes) && value.getLsbD j) := by
  cases width with
  | w32 =>
    simp only [cut, bytes, getLsbD_setWidth]
    by_cases h : j < 32
    · simp [h, show j < 64 by omega]
    · simp [h]
  | w64 =>
    simp only [cut, bytes]
    by_cases h : j < 64
    · simp [h]
    · simp [h, getLsbD_of_ge value j (by omega)]

theorem Width.getLsbD_overwrite (width : Width) (old value : BitVec 64) (j : Nat) :
    (width.overwrite old value).getLsbD j
      = if j < 8 * width.bytes then value.getLsbD j else old.getLsbD j := by
  cases width with
  | w32 =>
    simp only [overwrite, bytes, getLsbD_append, getLsbD_setWidth, getLsbD_extractLsb']
    by_cases h : j < 32
    · simp [h]
    · by_cases hlarge : j < 64
      · simp [h, show j - 32 < 32 by omega, show 32 + (j - 32) = j by omega]
      · simp [h, show ¬ j - 32 < 32 by omega, show 64 ≤ j by omega]
  | w64 =>
    simp only [overwrite, bytes]
    by_cases h : j < 64
    · simp [h]
    · simp [h, show 64 ≤ j by omega]

/-- Memory as bytes at addresses. -/
abbrev Memory := BitVec 64 → BitVec 8

namespace Memory

/-- The word of `count` bytes from an address on, the lowest byte first. -/
def read (memory : Memory) (addr : BitVec 64) : Nat → BitVec 64
  | 0 => 0
  | count + 1 =>
    read memory addr count
      ||| ((memory (addr + BitVec.ofNat 64 count)).setWidth 64 <<< (8 * count))

/-- Memory with the lowest `count` bytes of a word from an address on. -/
def write (memory : Memory) (addr : BitVec 64) (count : Nat) (value : BitVec 64) : Memory :=
  fun place =>
    let off := (place - addr).toNat
    if off < count then value.extractLsb' (8 * off) 8 else memory place

theorem getLsbD_read (memory : Memory) (addr : BitVec 64) (count j : Nat) (hj : j < 64) :
    (memory.read addr count).getLsbD j = (decide (j < 8 * count)
          && (memory (addr + BitVec.ofNat 64 (j / 8))).getLsbD (j % 8)) := by
  induction count with
  | zero => simp [read]
  | succ count ih =>
    rw [read, getLsbD_or, ih, getLsbD_shiftLeft, getLsbD_setWidth]
    -- Bit `j` is one of the older bytes, of the byte added last, or of none.
    rcases Nat.lt_or_ge j (8 * count) with hold | hnew
    · simp [hold, hj, show j < 8 * (count + 1) by omega]
    · by_cases hlast : j < 8 * (count + 1)
      · have hbyte : j / 8 = count := by omega
        have hbit : j - 8 * count = j % 8 := by omega
        simp [hbyte, hbit, hj, hlast, show ¬ j < 8 * count by omega, show j % 8 < 64 by omega]
      · have hbit : 8 ≤ j - 8 * count := by omega
        simp [hlast, show ¬ j < 8 * count by omega, getLsbD_of_ge _ _ hbit]

theorem offset_of_lt {addr : BitVec 64} {k : Nat} (hk : k < 8) :
    (addr + BitVec.ofNat 64 k - addr).toNat = k := by
  rw [BitVec.add_comm, BitVec.add_sub_cancel, toNat_ofNat]
  exact Nat.mod_eq_of_lt (by omega)

/-- Every bit of a written word is read back, and the bytes after it are what they were. -/
theorem read_write (memory : Memory) (addr : BitVec 64) (width : Width) (value : BitVec 64) :
    (memory.write addr width.bytes value).read addr 8
      = width.overwrite (memory.read addr 8) value := by
  apply eq_of_getLsbD_eq
  intro j hj
  have hbyte : j / 8 < 8 := by omega
  rw [getLsbD_read _ _ _ _ hj, Width.getLsbD_overwrite, getLsbD_read _ _ _ _ hj, write]
  simp only [offset_of_lt hbyte]
  by_cases hwritten : j < 8 * width.bytes
  · have hoff : j / 8 < width.bytes := by omega
    have hbit : 8 * (j / 8) + j % 8 = j := by omega
    simp [hoff, hwritten, hj, hbit, show j % 8 < 8 by omega]
  · have hoff : ¬ j / 8 < width.bytes := by omega
    simp [hoff, hwritten]

theorem read_bytes (memory : Memory) (addr : BitVec 64) (width : Width) :
    memory.read addr width.bytes = width.cut (memory.read addr 8) := by
  apply eq_of_getLsbD_eq
  intro j hj
  rw [getLsbD_read _ _ _ _ hj, Width.getLsbD_cut, getLsbD_read _ _ _ _ hj]
  simp [hj]

end Memory

/-- What moves between registers and memory depend on. -/
structure HostState where
  gpr : Gpr → BitVec 64
  memory : Memory

namespace HostState

/-- A state with another word in a register. -/
def set (state : HostState) (reg : Gpr) (value : BitVec 64) : HostState :=
  { state with gpr := fun other => if other = reg then value else state.gpr other }

@[simp] theorem memory_set (state : HostState) (reg : Gpr) (value : BitVec 64) :
    (state.set reg value).memory = state.memory :=
  rfl

@[simp] theorem gpr_set_self (state : HostState) (reg : Gpr) (value : BitVec 64) :
    (state.set reg value).gpr reg = value := by
  simp [set]

theorem gpr_set_of_ne {reg other : Gpr} (hne : other ≠ reg) (state : HostState)
    (value : BitVec 64) : (state.set reg value).gpr other = state.gpr other := by
  simp [set, hne]

/-- The address that a memory operand stands for. -/
def resolve (state : HostState) (addr : Address) : BitVec 64 :=
  state.gpr addr.base + addr.displacement.signExtend 64

/-- A state after one instruction. Instructions other than moves have no meaning here. -/
def step (state : HostState) : Instr → Option HostState
  | .mov width dst src => some (state.set dst (width.cut (state.gpr src)))
  | .movImm32 dst value => some (state.set dst (value.setWidth 64))
  | .movImm64 dst value => some (state.set dst value)
  | .load width dst source =>
    some (state.set dst (state.memory.read (state.resolve source) width.bytes))
  | .store width target src =>
    some { state with
      memory := state.memory.write (state.resolve target) width.bytes (state.gpr src) }
  | _ => none

/-- A state after straight code. -/
def run (state : HostState) : List Code.Item → Option HostState
  | [] => some state
  | .instr instr :: items => (state.step instr).bind fun next => next.run items
  | _ :: _ => none

end HostState

end GraphJit.X64
