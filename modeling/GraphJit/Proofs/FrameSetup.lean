import GraphJit.Proofs.Execution
import GraphJit.Proofs.HomeContents

/-! # Setting up a frame and taking it down

The prologue leaves the registers it saves, and the return address, in the part of
the frame above the spilled locals. As long as nothing is written there and the
stack pointer stays in place, the epilogue brings all of it back. Each part of the
prologue and of the epilogue has one lemma: pushes, pops, stored vector registers,
restored ones, and the step of the stack pointer between them.
-/

namespace GraphJit

open X64 Code List HostState
open Gpr (rsp)

namespace X64

/-! ## Pushes and pops -/

/-- Words that stand in memory from an address on. -/
def Memory.Holds (memory : Memory) : BitVec 64 → List (BitVec 64) → Prop
  | _, [] => True
  | address, word :: words => memory.read address 8 = word ∧ memory.Holds (address + 8) words

variable {address : BitVec 64} {regs : List Gpr} {slots : List (Xmm × Address)}

theorem Memory.Holds.congr {memory other : Memory} {words : List (BitVec 64)}
    (h : memory.Holds address words) (hsame : ∀ i < 8 * words.length,
      other (address + BitVec.ofNat 64 i) = memory (address + BitVec.ofNat 64 i)) :
    other.Holds address words := by
  induction words generalizing address with
  | nil => trivial
  | cons word words ih =>
    rw [length_cons] at hsame
    constructor
    · rw [Memory.read_congr fun i hi => hsame i (by omega)]
      exact h.1
    · apply ih h.2
      intro i hi
      have hbyte := hsame (8 + i) (by omega)
      rwa [BitVec.ofNat_add, ← BitVec.add_assoc] at hbyte

theorem Memory.read_write_word (memory : Memory) (address value : BitVec 64) :
    (memory.write address 8 value).read address 8 = value :=
  memory.read_write address .w64 value

theorem Cpu.gpr_push_rsp (cpu : Cpu) (value : BitVec 64) :
    (cpu.push value).gpr rsp = cpu.gpr rsp - 8 :=
  gpr_set_self cpu.toHostState rsp (cpu.gpr rsp - 8)

theorem Cpu.gpr_pop_rsp (cpu : Cpu) : cpu.pop.2.gpr rsp = cpu.gpr rsp + 8 :=
  gpr_set_self cpu.toHostState rsp (cpu.gpr rsp + 8)

theorem Cpu.gpr_push_of_ne (cpu : Cpu) (value : BitVec 64) {reg : Gpr}
    (hne : reg ≠ rsp) : (cpu.push value).gpr reg = cpu.gpr reg :=
  gpr_set_of_ne hne ..

/-- A push writes below the stack pointer only. -/
theorem Cpu.memory_push (cpu : Cpu) (value : BitVec 64) {i : Nat} (hi : i < 2 ^ 33) :
    (cpu.push value).memory (cpu.gpr rsp + BitVec.ofNat 64 i)
      = cpu.memory (cpu.gpr rsp + BitVec.ofNat 64 i) := by
  apply if_neg
  bv_omega

variable (host : Host)

/-- After pushes the words are on the stack, the last one on top. Memory above is as before. -/
theorem exists_execute_pushes (cpu : Cpu) (hrsp : rsp ∉ regs) (hcount : regs.length ≤ 16) :
    ∃ next, host.execute false ((regs.map Instr.push).map .instr) cpu = some next ∧
      next.gpr rsp = cpu.gpr rsp - BitVec.ofNat 64 (8 * regs.length) ∧
      (∀ reg ≠ rsp, next.gpr reg = cpu.gpr reg) ∧ next.xmm = cpu.xmm ∧
      next.memory.Holds (next.gpr rsp) (regs.reverse.map cpu.gpr) ∧
      ∀ i < 2 ^ 32, next.memory (cpu.gpr rsp + BitVec.ofNat 64 i)
        = cpu.memory (cpu.gpr rsp + BitVec.ofNat 64 i) := by
  induction regs using List.reverseRecOn with
  | nil => exact ⟨cpu, rfl, (BitVec.sub_zero _).symm, fun _ _ => rfl, rfl, trivial, fun _ _ => rfl⟩
  | append_singleton regs reg ih =>
    rw [mem_append, mem_singleton, not_or] at hrsp
    rw [length_append, length_singleton] at hcount ⊢
    obtain ⟨mid, hexec, hsp, hgpr, hxmm, hholds, hmemory⟩ := ih hrsp.1 (by omega)
    refine ⟨mid.push (mid.gpr reg), ?_, ?_, ?_, hxmm, ?_, ?_⟩
    · rw [map_append, map_append, Host.execute_append _ hexec]
      rfl
    · rw [Cpu.gpr_push_rsp, hsp]
      bv_omega
    · intro other hother
      rw [Cpu.gpr_push_of_ne _ _ hother, hgpr other hother]
    · rw [reverse_append, Cpu.gpr_push_rsp]
      constructor
      · rw [← hgpr reg (Ne.symm hrsp.2)]
        exact Memory.read_write_word ..
      · rw [BitVec.sub_add_cancel]
        apply hholds.congr
        intro i hi
        rw [length_map, length_reverse] at hi
        exact mid.memory_push _ (by omega)
    · intro i hi
      have hbyte := mid.memory_push (mid.gpr reg) (show 8 * regs.length + i < 2 ^ 33 by omega)
      have hplace : mid.gpr rsp + BitVec.ofNat 64 (8 * regs.length + i)
          = cpu.gpr rsp + BitVec.ofNat 64 i := by
        rw [hsp, BitVec.ofNat_add]
        bv_omega
      rw [hplace] at hbyte
      rw [hbyte, hmemory i hi]

/-- Pops take the words on the stack to their registers. -/
theorem exists_execute_pops {value : Gpr → BitVec 64} (hrsp : rsp ∉ regs) (cpu : Cpu)
    (hholds : cpu.memory.Holds (cpu.gpr rsp) (regs.map value)) :
    ∃ next, host.execute false ((regs.map Instr.pop).map .instr) cpu = some next ∧
      next.gpr rsp = cpu.gpr rsp + BitVec.ofNat 64 (8 * regs.length) ∧
      (∀ reg ≠ rsp, next.gpr reg
        = if reg ∈ regs then value reg else cpu.gpr reg) ∧
      next.xmm = cpu.xmm ∧ next.memory = cpu.memory := by
  induction regs generalizing cpu with
  | nil => exact ⟨cpu, rfl, (BitVec.add_zero _).symm, fun _ _ => rfl, rfl, rfl⟩
  | cons reg regs ih =>
    rw [mem_cons, not_or] at hrsp
    let popped := cpu.pop.2.setGpr reg cpu.pop.1
    have hsp : popped.gpr rsp = cpu.gpr rsp + 8 :=
      (gpr_set_of_ne hrsp.1 ..).trans cpu.gpr_pop_rsp
    have hholds' : popped.memory.Holds (popped.gpr rsp) (regs.map value) := by
      rw [hsp]
      exact hholds.2
    obtain ⟨next, hexec, hnext, hgpr, hxmm, hmemory⟩ := ih hrsp.2 popped hholds'
    refine ⟨next, hexec, ?_, ?_, hxmm, hmemory⟩
    · rw [hnext, hsp, length_cons]
      bv_omega
    · intro other hother
      rw [hgpr other hother]
      by_cases hsame : other = reg
      · -- the register was popped here, and a later pop would bring the same word
        have hpopped : popped.gpr other = value other := by
          rw [hsame]
          exact (gpr_set_self ..).trans hholds.1
        rw [hpopped, ite_self, if_pos (hsame ▸ mem_cons_self)]
      · have hpopped : popped.gpr other = cpu.gpr other :=
          (gpr_set_of_ne hsame ..).trans (gpr_set_of_ne hother ..)
        simp only [hpopped, mem_cons, hsame, false_or]

/-! ## Vector registers -/

theorem Cpu.loadVector_storeVector (cpu : Cpu) (address : BitVec 64) (value : BitVec 128) :
    (cpu.storeVector address value).loadVector address = value := by
  have hhigh : (cpu.storeVector address value).memory.read (address + 8) 8
      = value.extractLsb' 64 64 := Memory.read_write_word ..
  have hlow : (cpu.storeVector address value).memory.read address 8 = value.setWidth 64 := by
    rw [← cpu.memory.read_write_word address (value.setWidth 64)]
    apply Memory.read_congr
    intro i hi
    apply if_neg
    bv_omega
  rw [Cpu.loadVector, hhigh, hlow]
  apply BitVec.eq_of_getLsbD_eq
  intro i hi
  rw [BitVec.getLsbD_append, BitVec.getLsbD_setWidth, BitVec.getLsbD_extractLsb']
  by_cases hhalf : i < 64
  · simp [hhalf]
  · simp [hhalf, show i - 64 < 64 by omega, show 64 + (i - 64) = i by omega]

theorem Cpu.loadVector_congr {cpu other : Cpu}
    (hsame : ∀ i < 16, cpu.memory (address + BitVec.ofNat 64 i)
      = other.memory (address + BitVec.ofNat 64 i)) :
    cpu.loadVector address = other.loadVector address := by
  have hlow := Memory.read_congr fun i (hi : i < 8) => hsame i (by omega)
  have hhigh : cpu.memory.read (address + 8) 8 = other.memory.read (address + 8) 8 := by
    apply Memory.read_congr
    intro i hi
    have hbyte := hsame (8 + i) (by omega)
    rwa [BitVec.ofNat_add, ← BitVec.add_assoc] at hbyte
  rw [Cpu.loadVector, Cpu.loadVector, hlow, hhigh]

/-- Slots that have no bytes in common. -/
def Cpu.SlotsApart (cpu : Cpu) (slots : List (Xmm × Address)) : Prop :=
  slots.Pairwise fun slot other => ∀ i < 16,
    16 ≤ (cpu.resolve slot.2 + BitVec.ofNat 64 i - cpu.resolve other.2).toNat

/-- Stored vector registers stand in their slots. All other memory is as before. -/
theorem exists_execute_saves (cpu : Cpu) (hapart : cpu.SlotsApart slots) :
    ∃ next, host.execute false ((slots.map fun slot => Instr.saveXmm slot.2 slot.1).map .instr) cpu
        = some next ∧ next.gpr = cpu.gpr ∧ next.xmm = cpu.xmm ∧
      (∀ slot ∈ slots, next.loadVector (cpu.resolve slot.2) = cpu.xmm slot.1) ∧
      ∀ address, (∀ slot ∈ slots, 16 ≤ (address - cpu.resolve slot.2).toNat) →
        next.memory address = cpu.memory address := by
  induction slots generalizing cpu with
  | nil => exact ⟨cpu, rfl, rfl, rfl, forall_mem_nil _, fun _ _ => rfl⟩
  | cons slot slots ih =>
    obtain ⟨hfirst, hrest⟩ := pairwise_cons.mp hapart
    let stored := cpu.storeVector (cpu.resolve slot.2) (cpu.xmm slot.1)
    obtain ⟨next, hexec, hgpr, hxmm, hslots, hmemory⟩ := ih stored hrest
    refine ⟨next, hexec, hgpr, hxmm, ?_, ?_⟩
    · rw [forall_mem_cons]
      refine ⟨?_, hslots⟩
      rw [← cpu.loadVector_storeVector (cpu.resolve slot.2) (cpu.xmm slot.1)]
      apply Cpu.loadVector_congr
      intro i hi
      exact hmemory _ fun other hother => hfirst other hother i hi
    · intro address haddr
      rw [forall_mem_cons] at haddr
      rw [hmemory address haddr.2]
      have hkept : Kept [] (some (slot.2, 16)) cpu stored := Kept.storeVector ..
      apply hkept.memory
      rintro place bytes ⟨⟩
      exact haddr.1

/-- Restored vector registers have what stands in their slots. -/
theorem exists_execute_restores {value : Xmm → BitVec 128} (cpu : Cpu)
    (hslots : ∀ slot ∈ slots, cpu.loadVector (cpu.resolve slot.2) = value slot.1) : ∃ next,
      host.execute false ((slots.map fun slot => Instr.restoreXmm slot.1 slot.2).map .instr) cpu
        = some next ∧ next.gpr = cpu.gpr ∧ next.memory = cpu.memory ∧ ∀ reg, next.xmm reg
        = if reg ∈ slots.map Prod.fst then value reg else cpu.xmm reg := by
  induction slots generalizing cpu with
  | nil => exact ⟨cpu, rfl, rfl, rfl, fun _ => rfl⟩
  | cons slot slots ih =>
    rw [forall_mem_cons] at hslots
    let restored := cpu.setXmm slot.1 (cpu.loadVector (cpu.resolve slot.2))
    obtain ⟨next, hexec, hgpr, hmemory, hxmm⟩ := ih restored hslots.2
    refine ⟨next, hexec, hgpr, hmemory, fun reg => ?_⟩
    rw [hxmm reg, map_cons]
    by_cases hsame : reg = slot.1
    · have hrestored : restored.xmm reg = value reg := by
        rw [hsame]
        exact (if_pos rfl).trans hslots.1
      rw [hrestored, ite_self, if_pos (hsame ▸ mem_cons_self)]
    · have hrestored : restored.xmm reg = cpu.xmm reg := if_neg hsame
      simp only [hrestored, mem_cons, hsame, false_or]

/-! ## The stack pointer -/

theorem signExtend_ofNat {off : Nat} (hoff : off < 2 ^ 31) :
    (BitVec.ofNat 32 off).signExtend 64 = BitVec.ofNat 64 off := by
  apply BitVec.eq_of_toNat_eq
  rw [toNat_signExtend_ofNat (by omega), if_pos hoff, BitVec.toNat_ofNat,
    Nat.mod_eq_of_lt (by omega)]

/-- The step of the stack pointer changes nothing but it. -/
theorem exists_execute_adjust {frame : Frame} (hrsvd : frame.reservedSize < 2 ^ 31) (op : AluOp)
    (combine : BitVec 64 → BitVec 64 → BitVec 64)
    (hop : ∀ a b : BitVec 64, op.result? a b = some (combine a b)) (hzero : ∀ a, combine a 0 = a)
    (cpu : Cpu) : ∃ next, host.execute false ((frame.adjust op).map .instr) cpu = some next ∧
      next.gpr rsp = combine (cpu.gpr rsp) (BitVec.ofNat 64 frame.reservedSize) ∧
      (∀ reg ≠ rsp, next.gpr reg = cpu.gpr reg) ∧ next.xmm = cpu.xmm ∧
      next.memory = cpu.memory := by
  rw [Frame.adjust]
  split
  next hempty =>
    rw [hempty]
    exact ⟨cpu, rfl, (hzero _).symm, fun _ _ => rfl, rfl, rfl⟩
  next =>
    refine ⟨cpu.arithmetic op .w64 rsp ((BitVec.ofNat 32 frame.reservedSize).signExtend 64),
      rfl, ?_⟩
    have hget : cpu.get .w64 rsp = cpu.gpr rsp := BitVec.setWidth_eq _
    rw [Cpu.arithmetic, hop, signExtend_ofNat hrsvd, hget]
    refine ⟨?_, fun reg hreg => gpr_set_of_ne hreg .., rfl, rfl⟩
    exact (gpr_set_self ..).trans (BitVec.setWidth_eq _)

end X64

/-! ## Frames -/

namespace Frame

/-- General purpose registers that the prologue pushes. -/
def pushed (frame : Frame) : List Gpr := frame.intSaved.members.map Gpr.mk

/-- A frame that can be set up: its parts have room, and the stack pointer is not saved. -/
structure Sound (frame : Frame) : Prop where
  total : frame.totalSize < 2 ^ 31
  vectors : 16 * frame.vecSaved.members.length ≤ frame.xmmSave
  pushes : frame.pushed.length ≤ frame.pushedCount
  stackPointer : rsp ∉ frame.pushed

variable {frame : Frame}

theorem prologue_eq (frame : Frame) :
    frame.prologue = frame.pushed.map .push ++ (frame.adjust .sub ++
      frame.saveSlots.map fun slot => .saveXmm slot.2 slot.1) := by
  rw [prologue, pushed, map_map, append_assoc]
  rfl

theorem epilogue_parts (frame : Frame) :
    frame.epilogue = frame.saveSlots.map (fun slot => .restoreXmm slot.1 slot.2) ++
      (frame.adjust .add ++ frame.pushed.reverse.map .pop) ++ [.ret] := by
  rw [epilogue, pushed, ← map_reverse, map_map, append_assoc (List.map _ _)]
  rfl

theorem dropLast_epilogue (frame : Frame) :
    frame.epilogue.dropLast = frame.saveSlots.map (fun slot => .restoreXmm slot.1 slot.2) ++
      (frame.adjust .add ++ frame.pushed.reverse.map .pop) := by
  rw [epilogue_parts, dropLast_concat]

/-- A vector register and its slot. -/
theorem of_mem_saveSlots {slot : Xmm × Address} (hslot : slot ∈ frame.saveSlots) :
    ∃ k < frame.vecSaved.members.length, slot.2 = ⟨rsp, frame.saveOffset k⟩ := by
  obtain ⟨⟨index, k⟩, hpair, rfl⟩ := mem_map.mp hslot
  exact ⟨k, snd_lt_of_mem_zipIdx hpair, rfl⟩

theorem map_fst_saveSlots (frame : Frame) :
    frame.saveSlots.map Prod.fst = frame.vecSaved.members.map Xmm.mk := by
  rw [saveSlots, map_map]
  apply ext_getElem
  · simp
  · intro k hk hk'
    simp

/-- The bytes of a frame above the spilled locals: saved registers and the return address. -/
def Guards (frame : Frame) (stackPointer address : BitVec 64) : Prop :=
  frame.callArgs + frame.spill ≤ (address - stackPointer).toNat ∧
    (address - stackPointer).toNat < frame.totalSize

theorem offset_sub (base : BitVec 64) {x y : Nat} (hle : y ≤ x) (hx : x < 2 ^ 64) :
    (base + BitVec.ofNat 64 x - (base + BitVec.ofNat 64 y)).toNat = x - y := by
  have hsum : x = y + (x - y) := by omega
  rw [hsum, BitVec.ofNat_add]
  bv_omega

namespace Sound

variable (hsound : frame.Sound) {cpu : Cpu}
include hsound

theorem bounds : frame.callArgs + frame.spill + 16 * frame.vecSaved.members.length
      ≤ frame.reservedSize ∧ frame.reservedSize + 8 * frame.pushed.length + 8 ≤ frame.totalSize ∧
    frame.totalSize < 2 ^ 31 := by
  have hvectors := hsound.vectors
  have hpushes := hsound.pushes
  refine ⟨?_, ?_, hsound.total⟩
  · rw [reservedSize]
    omega
  · rw [totalSize, wordBytes, returnAddressBytes]
    omega

theorem guards_offset (stackPointer : BitVec 64) {off : Nat}
    (hlow : frame.callArgs + frame.spill ≤ off) (hhigh : off < frame.totalSize) :
    frame.Guards stackPointer (stackPointer + BitVec.ofNat 64 off) := by
  have htotal := hsound.total
  have hoff := offset_sub stackPointer (Nat.zero_le off) (by omega)
  rw [BitVec.add_zero, Nat.sub_zero] at hoff
  rw [Guards, hoff]
  exact ⟨hlow, hhigh⟩

theorem resolve_saveOffset (cpu : Cpu) {k : Nat} (hk : k < frame.vecSaved.members.length) :
    cpu.resolve ⟨rsp, frame.saveOffset k⟩
      = cpu.gpr rsp + BitVec.ofNat 64 (frame.callArgs + frame.spill + 16 * k) := by
  obtain ⟨hrsvd, htotal, hbound⟩ := hsound.bounds
  rw [HostState.resolve, saveOffset, vectorBytes, Nat.mul_comm k, signExtend_ofNat (by omega)]

theorem slotsApart (cpu : Cpu) : cpu.SlotsApart frame.saveSlots := by
  obtain ⟨hrsvd, htotal, hbound⟩ := hsound.bounds
  apply pairwise_iff_getElem.mpr
  intro k j hk hj hlt i hi
  have hlength : frame.saveSlots.length = frame.vecSaved.members.length := by
    rw [saveSlots, length_map, length_zipIdx]
  have hslot {m : Nat} (hm : m < frame.saveSlots.length) :
      frame.saveSlots[m].2 = ⟨rsp, frame.saveOffset m⟩ := by
    simp [saveSlots]
  rw [hslot hk, hslot hj, hsound.resolve_saveOffset cpu (by omega),
    hsound.resolve_saveOffset cpu (by omega), BitVec.add_assoc, ← BitVec.ofNat_add]
  -- the later slot lies above, so the difference wraps around
  bv_omega

end Sound

/-- A state after the prologue, seen from the one before. -/
structure SetUp (frame : Frame) (cpu mid : Cpu) : Prop where
  stackPointer : cpu.gpr rsp
    = mid.gpr rsp + BitVec.ofNat 64 (frame.reservedSize + 8 * frame.pushed.length)
  gpr : ∀ reg ≠ rsp, mid.gpr reg = cpu.gpr reg
  xmm : mid.xmm = cpu.xmm
  pushed : mid.memory.Holds (mid.gpr rsp + BitVec.ofNat 64 frame.reservedSize)
    (frame.pushed.reverse.map cpu.gpr)
  vectors : ∀ slot ∈ frame.saveSlots, mid.loadVector (mid.resolve slot.2) = cpu.xmm slot.1
  above : ∀ i < 2 ^ 31, mid.memory (cpu.gpr rsp + BitVec.ofNat 64 i)
    = cpu.memory (cpu.gpr rsp + BitVec.ofNat 64 i)

/-- The stack pointer in the body of a function, given the one at its entry. -/
def bodyPointer (frame : Frame) (entry : BitVec 64) : BitVec 64 :=
  entry - BitVec.ofNat 64 (frame.reservedSize + 8 * frame.pushed.length)

variable {cpu mid : Cpu}

theorem SetUp.bodyPointer_eq (hsetUp : frame.SetUp cpu mid) :
    frame.bodyPointer (cpu.gpr rsp) = mid.gpr rsp := by
  rw [bodyPointer, hsetUp.stackPointer, BitVec.add_sub_cancel]

/-- The prologue sets up the frame. -/
theorem exists_setUp (host : Host) (hsound : frame.Sound) (cpu : Cpu) :
    ∃ mid, host.execute false (frame.prologue.map .instr) cpu = some mid ∧ frame.SetUp cpu mid := by
  obtain ⟨hrsvd, htotal, hbound⟩ := hsound.bounds
  have hcount : frame.pushed.length ≤ 16 := by
    rw [pushed, length_map]
    exact Lowering.length_members_le frame.intSaved
  obtain ⟨first, hfirst, hfirstSp, hfirstGpr, hfirstXmm, hfirstHolds, hfirstMemory⟩ :=
    exists_execute_pushes host cpu hsound.stackPointer hcount
  obtain ⟨second, hsecond, hsecondSp, hsecondGpr, hsecondXmm, hsecondMemory⟩ :=
    exists_execute_adjust host (show frame.reservedSize < 2 ^ 31 by omega) .sub (· - ·)
      (fun _ _ => rfl) (fun _ => BitVec.sub_zero _) first
  obtain ⟨mid, hthird, hmiddleGpr, hmiddleXmm, hmiddleSlots, hmiddleMemory⟩ :=
    exists_execute_saves host second (hsound.slotsApart second)
  have hsp : mid.gpr rsp = second.gpr rsp := by rw [hmiddleGpr]
  have hfirstOffset : first.gpr rsp = mid.gpr rsp + BitVec.ofNat 64 frame.reservedSize := by
    rw [hsp, hsecondSp]
    exact (BitVec.sub_add_cancel _ _).symm
  have hcpuOffset : cpu.gpr rsp
      = mid.gpr rsp + BitVec.ofNat 64 (frame.reservedSize + 8 * frame.pushed.length) := by
    rw [BitVec.ofNat_add, ← BitVec.add_assoc, ← hfirstOffset, hfirstSp, BitVec.sub_add_cancel]
  -- vector registers are stored below what was pushed
  have hkept {off : Nat} (hlow : frame.reservedSize ≤ off) (hhigh : off < 2 ^ 32) :
      mid.memory (mid.gpr rsp + BitVec.ofNat 64 off)
        = first.memory (mid.gpr rsp + BitVec.ofNat 64 off) := by
    rw [← hsecondMemory]
    apply hmiddleMemory
    intro slot hslot
    obtain ⟨k, hk, hplace⟩ := of_mem_saveSlots hslot
    rw [hplace, hsound.resolve_saveOffset second hk, ← hsp, offset_sub _ (by omega) (by omega)]
    omega
  refine ⟨mid, ?_, hcpuOffset, ?_, ?_, ?_, ?_, ?_⟩
  · rw [prologue_eq, map_append, map_append, Host.execute_append _ hfirst,
      Host.execute_append _ hsecond]
    exact hthird
  · intro reg hreg
    rw [hmiddleGpr, hsecondGpr reg hreg, hfirstGpr reg hreg]
  · rw [hmiddleXmm, hsecondXmm, hfirstXmm]
  · rw [hfirstOffset] at hfirstHolds
    apply hfirstHolds.congr
    intro i hi
    rw [length_map, length_reverse] at hi
    have hbyte := @hkept (frame.reservedSize + i) (by omega) (by omega)
    rwa [BitVec.ofNat_add, ← BitVec.add_assoc] at hbyte
  · intro slot hslot
    rw [← hfirstXmm, ← hsecondXmm, ← hmiddleSlots slot hslot, HostState.resolve, HostState.resolve,
      hmiddleGpr]
  · intro i hi
    rw [← hfirstMemory i (by omega), hcpuOffset, BitVec.add_assoc, ← BitVec.ofNat_add]
    exact hkept (by omega) (by omega)

/-- The epilogue brings back what was saved, if it is still there. -/
theorem exists_takenDown (host : Host) (hsound : frame.Sound) {state : Cpu}
    (hsetUp : frame.SetUp cpu mid) (hsp : state.gpr rsp = mid.gpr rsp)
    (hmemory : ∀ address, frame.Guards (mid.gpr rsp) address →
      state.memory address = mid.memory address) :
    ∃ last, host.execute false (frame.epilogue.dropLast.map .instr) state = some last ∧
      last.gpr rsp = cpu.gpr rsp ∧ (∀ reg ≠ rsp, last.gpr reg
        = if reg ∈ frame.pushed then cpu.gpr reg else state.gpr reg) ∧
      (∀ reg, last.xmm reg = if reg ∈ frame.vecSaved.members.map Xmm.mk
        then cpu.xmm reg else state.xmm reg) ∧ last.memory = state.memory := by
  obtain ⟨hrsvd, htotal, hbound⟩ := hsound.bounds
  have hguarded {off : Nat} (hlow : frame.callArgs + frame.spill ≤ off)
      (hhigh : off < frame.totalSize) :=
    hmemory _ (hsound.guards_offset (mid.gpr rsp) hlow hhigh)
  have hslots : ∀ slot ∈ frame.saveSlots,
      state.loadVector (state.resolve slot.2) = cpu.xmm slot.1 := by
    intro slot hslot
    obtain ⟨k, hk, hplace⟩ := of_mem_saveSlots hslot
    rw [← hsetUp.vectors slot hslot, hplace, hsound.resolve_saveOffset state hk,
      hsound.resolve_saveOffset mid hk, hsp]
    apply Cpu.loadVector_congr
    intro i hi
    rw [BitVec.add_assoc, ← BitVec.ofNat_add]
    exact hguarded (by omega) (by omega)
  obtain ⟨first, hfirst, hfirstGpr, hfirstMemory, hfirstXmm⟩ :=
    exists_execute_restores host state hslots
  obtain ⟨second, hsecond, hsecondSp, hsecondGpr, hsecondXmm, hsecondMemory⟩ :=
    exists_execute_adjust host (show frame.reservedSize < 2 ^ 31 by omega) .add (· + ·)
      (fun _ _ => rfl) (fun _ => BitVec.add_zero _) first
  have hsecondOffset : second.gpr rsp = mid.gpr rsp + BitVec.ofNat 64 frame.reservedSize := by
    rw [hsecondSp, hfirstGpr, hsp]
  have hholds : second.memory.Holds (second.gpr rsp) (frame.pushed.reverse.map cpu.gpr) := by
    rw [hsecondOffset, hsecondMemory, hfirstMemory]
    apply hsetUp.pushed.congr
    intro i hi
    rw [length_map, length_reverse] at hi
    rw [BitVec.add_assoc, ← BitVec.ofNat_add]
    exact hguarded (by omega) (by omega)
  have hstackPointer : rsp ∉ frame.pushed.reverse := by
    rw [mem_reverse]
    exact hsound.stackPointer
  obtain ⟨last, hthird, hlastSp, hlastGpr, hlastXmm, hlastMemory⟩ :=
    exists_execute_pops host hstackPointer second hholds
  refine ⟨last, ?_, ?_, ?_, ?_, ?_⟩
  · rw [dropLast_epilogue, map_append, map_append, Host.execute_append _ hfirst,
      Host.execute_append _ hsecond]
    exact hthird
  · rw [hlastSp, hsecondOffset, hsetUp.stackPointer, length_reverse, BitVec.ofNat_add,
      BitVec.add_assoc]
  · intro reg hreg
    rw [hlastGpr reg hreg, hsecondGpr reg hreg, hfirstGpr]
    simp only [mem_reverse]
  · intro reg
    rw [hlastXmm, hsecondXmm, hfirstXmm reg, map_fst_saveSlots]
  · rw [hlastMemory, hsecondMemory, hfirstMemory]

/-! ## Saved registers -/

theorem mem_members {mask : Mask} {index : Fin 16} :
    index ∈ mask.members ↔ mask.getLsbD index = true := by
  rw [Mask.members, mem_filter, and_iff_right (mem_finRange index)]

theorem mem_pushed_iff {reg : Gpr} :
    reg ∈ frame.pushed ↔ frame.saved.contains (Lowering.nameOf reg) = true := by
  rw [pushed, mem_map]
  constructor
  · rintro ⟨index, hindex, rfl⟩
    exact mem_members.mp hindex
  · exact fun hsaved => ⟨reg.index, mem_members.mpr hsaved, rfl⟩

theorem mem_vectors_iff {reg : Xmm} : reg ∈ frame.vecSaved.members.map Xmm.mk ↔
    frame.saved.contains (Lowering.vectorNameOf reg) = true := by
  rw [mem_map]
  constructor
  · rintro ⟨index, hindex, rfl⟩
    exact mem_members.mp hindex
  · exact fun hsaved => ⟨reg.index, mem_members.mpr hsaved, rfl⟩

/-- An epilogue that undoes a prologue: the vector registers come back from where they were stored,
as much is released as was reserved, and what was pushed is popped in reverse order. The registers
of results are not written. -/
structure Mirrored (frame : Frame) : Prop where
  mirror : ∃ (pushed : List Gpr) (stored : List (Xmm × Address)),
    frame.prologue = pushed.map .push ++ (frame.adjust .sub ++
      stored.map fun slot => .saveXmm slot.2 slot.1) ∧
    frame.epilogue = stored.map (fun slot => .restoreXmm slot.1 slot.2) ++
      (frame.adjust .add ++ pushed.reverse.map .pop) ++ [.ret]
  results : ∀ instr ∈ frame.epilogue,
    HostRegister.rax ∉ instr.written ∧ HostRegister.xmm0 ∉ instr.written

theorem mirrored (hrax : frame.saved.contains .rax = false)
    (hxmm0 : frame.saved.contains .xmm0 = false) : frame.Mirrored where
  mirror := ⟨frame.pushed, frame.saveSlots, frame.prologue_eq, frame.epilogue_parts⟩
  results instr hinstr := by
    have hrsp : HostRegister.rax ∉ [HostRegister.rsp] ∧ HostRegister.xmm0 ∉ [HostRegister.rsp] := by
      decide
    rw [epilogue_parts, mem_append, mem_append, mem_append, adjust] at hinstr
    rcases hinstr with (hrestore | hadjust | hpop) | hret
    · obtain ⟨slot, hslot, rfl⟩ := mem_map.mp hrestore
      have hsaved := mem_vectors_iff.mp (map_fst_saveSlots frame ▸ mem_map_of_mem hslot)
      rw [Instr.written, mem_singleton, mem_singleton]
      constructor
      · exact fun heq => Nat.zero_ne_one (congrArg HostRegister.bank heq)
      · intro heq
        rw [← heq, hxmm0] at hsaved
        cases hsaved
    · split at hadjust
      · cases hadjust
      · rw [mem_singleton.mp hadjust]
        exact hrsp
    · obtain ⟨reg, hreg, rfl⟩ := mem_map.mp hpop
      have hsaved := mem_pushed_iff.mp (mem_reverse.mp hreg)
      constructor
      · apply not_mem_cons_of_ne_of_not_mem _ hrsp.1
        intro heq
        rw [← heq, hrax] at hsaved
        cases hsaved
      · apply not_mem_cons_of_ne_of_not_mem _ hrsp.2
        exact fun heq => Nat.one_ne_zero (congrArg HostRegister.bank heq)
    · rw [mem_singleton.mp hret]
      exact hrsp

end Frame

end GraphJit
