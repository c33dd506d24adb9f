import GraphJit.Proofs.IntegerLowering
import GraphJit.Proofs.ParallelMoves

/-! # Moves of operands

What the code does that loads an operand of any type into a register, puts it on the
stack, or stores a register or an incoming argument to the home of a local: one cell
gets the value at the width of its type, and nothing else changes but the
accumulator and the scratch register for floats.
-/

namespace GraphJit

open X64 Code Cell

/-! ## Cells of registers and homes -/

namespace X64

open Lowering (nameOf gprOf xmmOf vectorNameOf)

/-- The register of a name. -/
def Cell.ofName (name : HostRegister) : Cell :=
  if name.isGp then .gpr (gprOf name) else .xmm (xmmOf name)

theorem Cell.ofName_nameOf (reg : Gpr) : ofName (nameOf reg) = .gpr reg :=
  congrArg Cell.gpr (Lowering.gprOf_nameOf reg)

theorem Cell.ofName_vectorNameOf (reg : Xmm) : ofName (vectorNameOf reg) = .xmm reg := by
  have hindex : nibble reg.index = reg.index :=
    Fin.ext (Nat.mod_eq_of_lt reg.index.isLt)
  exact congrArg (fun index => Cell.xmm ⟨index⟩) hindex

theorem Cell.read_setGpr (cpu : Cpu) (reg : Gpr) (value : BitVec 64) :
    (Cell.gpr reg).read (cpu.setGpr reg value) = value :=
  HostState.gpr_set_self ..

theorem Cell.read_setXmm (cpu : Cpu) (reg : Xmm) (value : BitVec 128) :
    (Cell.xmm reg).read (cpu.setXmm reg value) = value.setWidth 64 :=
  congrArg (BitVec.setWidth 64) (if_pos rfl)

theorem Cell.cut_read_write (cpu : Cpu) (addr : BitVec 64) (width : Width) (value : BitVec 64) :
    width.cut ((Cell.memory addr).read
      { cpu with memory := cpu.memory.write addr width.bytes value }) = width.cut value := by
  rw [Cell.read, Memory.read_write]
  exact Lowering.cut_overwrite (Lowering.narrower_self width) ..

end X64

namespace Lowering

/-- The cell of a home, given the stack pointer. -/
def Target.cellOf (target : Target) (base : BitVec 64) : Location → Cell
  | .register name => .ofName name
  | .spill slot =>
    .memory (base + (BitVec.ofNat 32 (target.frame.callArgs + slot)).signExtend 64)

theorem Target.setWidth_content (target : Target) (cpu : Cpu) (home : Location) :
    (target.content cpu home).setWidth 64 = (target.cellOf (cpu.gpr Gpr.rsp) home).read cpu := by
  cases home with
  | register name =>
    rw [content, cellOf, ofName]
    split
    · exact (BitVec.setWidth_setWidth_of_le _ (by decide)).trans (BitVec.setWidth_eq _)
    · rfl
  | spill slot => exact (BitVec.setWidth_setWidth_of_le _ (by decide)).trans (BitVec.setWidth_eq _)

theorem Target.valueOf_localVar {target : Target} {id : Nat} {home : Location}
    (hhome : target.allocation.location? id = some home) (cpu : Cpu) (type : ValueType) :
    target.valueOf cpu (.localVar id type)
      = (Width.ofType type).cut ((target.cellOf (cpu.gpr Gpr.rsp) home).read cpu) := by
  rw [valueOf, hhome]
  exact congrArg (Width.ofType type).cut (target.setWidth_content cpu home)

/-- Operands keep their values as long as no home is written. -/
theorem Target.valueOf_altered {target : Target} {cells : List Cell} {before after : Cpu}
    (h : Altered cells before after) (hrsp : .gpr Gpr.rsp ∉ cells)
    (hapart : ∀ id home, target.allocation.location? id = some home →
      ∀ cell ∈ cells, (target.cellOf (before.gpr Gpr.rsp) home).Apart cell) (opnd : Operand) :
    target.valueOf after opnd = target.valueOf before opnd := by
  cases opnd with
  | constant | register => rfl
  | localVar id type =>
    cases hhome : target.allocation.location? id with
    | none => rw [valueOf, valueOf, hhome]
    | some home =>
      rw [valueOf_localVar hhome, valueOf_localVar hhome, h.gpr _ hrsp,
        h.read_eq (hapart id home hhome)]

/-! ## Running accepted code -/

/-- The code of an accepted emission takes every state to one that is related to it. -/
def Runs (emission : Emission) (post : Cpu → Cpu → Prop) : Prop :=
  ∀ items, emission = .ok items → ∀ (host : Host) (cpu : Cpu),
    ∃ next, host.execute false items cpu = some next ∧ post cpu next

namespace Runs

variable {emission second : Emission} {post mid weaker : Cpu → Cpu → Prop}

theorem emit {machine : Assembler.Result Instr}
    (h : ∀ instr, machine = .ok instr → ∀ (host : Host) (cpu : Cpu),
      ∃ next, host.exec cpu instr = some next ∧ post cpu next) : Runs (emit machine) post := by
  intro items hitems host cpu
  cases machine with
  | error cause => cases hitems
  | ok instr =>
    cases hitems
    obtain ⟨next, hnext, hpost⟩ := h instr rfl host cpu
    refine ⟨next, ?_, hpost⟩
    rw [Host.execute, hnext]
    rfl

theorem mono (h : Runs emission post) (hweaker : ∀ before after, post before after →
    weaker before after) : Runs emission weaker := by
  intro items hitems host cpu
  obtain ⟨next, hnext, hpost⟩ := h items hitems host cpu
  exact ⟨next, hnext, hweaker cpu next hpost⟩

theorem two (hfirst : Runs emission mid) (hsecond : Runs second post)
    (hweaker : ∀ first between last, mid first between → post between last →
      weaker first last) : Runs (sequence [emission, second]) weaker := by
  intro items hitems host cpu
  obtain ⟨front, back, hfront, hback, rfl⟩ := of_sequence_cons hitems
  rw [sequence_single] at hback
  obtain ⟨between, hbetween, hmiddle⟩ := hfirst front hfront host cpu
  obtain ⟨last, hlast, hpost⟩ := hsecond back hback host between
  exact ⟨last, (Host.execute_append _ hbetween).trans hlast, hweaker cpu between last hmiddle hpost⟩

/-- Access through the home of an operand. -/
theorem atHome {target : Target} {opnd : Operand} {inRegister : HostRegister → Emission}
    {inSlot : BitVec 32 → Emission} (hreg : ∀ id name, opnd = .localVar id opnd.type →
      target.allocation.location? id = some (.register name) → Runs (inRegister name) post)
    (hslot : ∀ id slot, opnd = .localVar id opnd.type →
      target.allocation.location? id = some (.spill slot) →
        Runs (inSlot (BitVec.ofNat 32 (target.frame.callArgs + slot))) post) :
    Runs (target.atHome opnd inRegister inSlot) post := by
  intro items hitems
  obtain ⟨home, hhome, hitems⟩ := of_bind hitems
  obtain ⟨id, hid, hhome⟩ := Target.of_location hhome
  have hopnd : opnd = .localVar id opnd.type := by
    cases opnd with
    | constant | register => cases hid
    | localVar => cases hid; rfl
  cases home with
  | register name => exact hreg id name hopnd hhome items hitems
  | spill slot =>
    obtain ⟨disp, hoff, hitems⟩ := of_bind hitems
    obtain ⟨off, hword, hdisp⟩ := of_bind (liftM_eq_ok hoff)
    rw [← Except.ok.inj hdisp, (of_wordSize hword).1] at hitems
    exact hslot id slot hopnd hhome items hitems

section Homes

variable {target : Target} {inRegister : HostRegister → Emission} {inSlot : BitVec 32 → Emission}
  {width : Width} {scratch : List Cell}

/-- Code that brings the word of a register or of a slot brings the value of an operand. -/
theorem fromHome {opnd : Operand} {cell : Cell}
    (hreg : ∀ name, Runs (inRegister name) fun before after =>
      Brought cell scratch (Width.ofType opnd.type)
        ((Width.ofType opnd.type).cut ((ofName name).read before)) before after)
    (hslot : ∀ disp, Runs (inSlot disp) fun before after =>
      Brought cell scratch (Width.ofType opnd.type) ((Width.ofType opnd.type).cut
        ((Cell.memory (before.gpr Gpr.rsp + disp.signExtend 64)).read before)) before after) :
    Runs (target.atHome opnd inRegister inSlot) fun before after =>
      Brought cell scratch (Width.ofType opnd.type) (target.valueOf before opnd) before after := by
  apply atHome
  · intro id name hopnd hhome
    rw [hopnd] at hreg ⊢
    simp only [Target.valueOf_localVar hhome]
    exact hreg name
  · intro id slot hopnd hhome
    rw [hopnd] at hslot ⊢
    simp only [Target.valueOf_localVar hhome]
    exact hslot _

/-- Code that brings a value to any register or slot brings it to the home of a local. -/
theorem toHome {id : Nat} {home : Location} {type : ValueType} {value : Cpu → BitVec 64}
    (hhome : target.allocation.location? id = some home)
    (hreg : ∀ name, Runs (inRegister name) fun before after =>
      Brought (.ofName name) scratch width (value before) before after)
    (hslot : ∀ disp, Runs (inSlot disp) fun before after =>
      Brought (.memory (before.gpr Gpr.rsp + disp.signExtend 64)) scratch width
        (value before) before after) :
    Runs (target.atHome (.localVar id type) inRegister inSlot) fun before after =>
      Brought (target.cellOf (before.gpr Gpr.rsp) home) scratch width (value before) before after := by
  apply atHome
  · intro _ name hopnd hfound
    cases hopnd
    cases hhome.symm.trans hfound
    exact hreg name
  · intro _ slot hopnd hfound
    cases hopnd
    cases hhome.symm.trans hfound
    exact hslot _

end Homes

end Runs

/-! ## Copying instructions -/

open Assembler

section Copying

open HostRegister (rsp)

variable (isFloat : Bool) {name src : HostRegister} (width : Width)

theorem resolve_rsp (cpu : Cpu) {base : Gpr} (hbase : nameOf base = rsp) (disp : BitVec 32) :
    cpu.resolve ⟨base, disp⟩ = cpu.gpr Gpr.rsp + disp.signExtend 64 := by
  rw [nameOf_inj (show nameOf base = nameOf Gpr.rsp from hbase)]
  rfl

theorem brought_setGpr (cpu : Cpu) {dst : Gpr} (hdst : nameOf dst = name) (value : BitVec 64) :
    Brought (.ofName name) [] width (width.cut value) cpu (cpu.setGpr dst value) := by
  rw [← hdst, ofName_nameOf]
  exact ⟨.setGpr cpu dst value, congrArg width.cut (read_setGpr ..)⟩

theorem brought_setGpr_cut (cpu : Cpu) {dst : Gpr} (hdst : nameOf dst = name) (value : BitVec 64) :
    Brought (.ofName name) [] width (width.cut value) cpu (cpu.setGpr dst (width.cut value)) := by
  have hbring := brought_setGpr width cpu hdst (width.cut value)
  rwa [cut_cut_self] at hbring

theorem brought_setXmm (cpu : Cpu) {dst : Xmm} (hdst : vectorNameOf dst = name)
    (value : BitVec 128) :
    Brought (.ofName name) [] width (width.cut (value.setWidth 64)) cpu (cpu.setXmm dst value) := by
  rw [← hdst, ofName_vectorNameOf]
  exact ⟨.setXmm cpu dst value, congrArg width.cut (read_setXmm ..)⟩

theorem runs_movImm (value : BitVec 64) :
    Runs (emit (movImm width name value)) (Brought (.ofName name) [] width (width.cut value)) := by
  apply Runs.emit
  intro instr hinstr host cpu
  obtain ⟨dst, hdst, hinstr⟩ := of_bind hinstr
  refine ⟨cpu.setGpr dst (width.cut value), ?_, ?_⟩
  · cases width <;> cases hinstr <;> rfl
  · exact brought_setGpr_cut width cpu (of_general hdst) value

theorem runs_moveAs : Runs (emit (moveAs isFloat width name src)) fun before after =>
    Brought (.ofName name) [] width (width.cut ((ofName src).read before)) before after := by
  apply Runs.emit
  intro instr hinstr host cpu
  cases isFloat with
  | false =>
    obtain ⟨dst, reg, hdst, hreg, rfl⟩ := of_two hinstr
    refine ⟨_, rfl, ?_⟩
    rw [← of_general hreg, ofName_nameOf]
    exact brought_setGpr_cut width cpu (of_general hdst) _
  | true =>
    obtain ⟨dst, reg, hdst, hreg, rfl⟩ := of_two hinstr
    refine ⟨_, rfl, ?_⟩
    rw [← of_vector hreg, ofName_vectorNameOf]
    exact brought_setXmm width cpu (of_vector hdst) _

theorem runs_loadAs (disp : BitVec 32) :
    Runs (emit (loadAs isFloat width name rsp disp)) fun before after =>
      Brought (.ofName name) [] width (width.cut
        ((Cell.memory (before.gpr Gpr.rsp + disp.signExtend 64)).read before)) before after := by
  apply Runs.emit
  intro instr hinstr host cpu
  cases isFloat with
  | false =>
    obtain ⟨base, dst, hbase, hdst, rfl⟩ := of_two hinstr
    refine ⟨_, rfl, ?_⟩
    rw [← resolve_rsp cpu (of_general hbase), ← cut_cut_self, Cell.read, ← Memory.read_bytes]
    exact brought_setGpr width cpu (of_general hdst) _
  | true =>
    obtain ⟨dst, base, hdst, hbase, rfl⟩ := of_two hinstr
    refine ⟨_, rfl, ?_⟩
    rw [← resolve_rsp cpu (of_general hbase), ← cut_cut_self, Cell.read, ← Memory.read_bytes]
    have hbring := brought_setXmm width cpu (of_vector hdst)
      ((cpu.memory.read (cpu.resolve ⟨base, disp⟩) width.bytes).setWidth 128)
    rwa [BitVec.setWidth_setWidth_of_le _ (by decide), BitVec.setWidth_eq] at hbring

theorem runs_storeAs (disp : BitVec 32) :
    Runs (emit (storeAs isFloat width rsp disp src)) fun before after =>
      Brought (.memory (before.gpr Gpr.rsp + disp.signExtend 64)) [] width
        (width.cut ((ofName src).read before)) before after := by
  apply Runs.emit
  intro instr hinstr host cpu
  cases isFloat with
  | false =>
    obtain ⟨base, reg, hbase, hreg, rfl⟩ := of_two hinstr
    refine ⟨_, rfl, ?_⟩
    rw [← of_general hreg, ofName_nameOf, ← resolve_rsp cpu (of_general hbase)]
    exact ⟨.write .., cut_read_write ..⟩
  | true =>
    obtain ⟨reg, base, hreg, hbase, rfl⟩ := of_two hinstr
    refine ⟨_, rfl, ?_⟩
    rw [← of_vector hreg, ofName_vectorNameOf, ← resolve_rsp cpu (of_general hbase)]
    exact ⟨.write .., cut_read_write ..⟩

theorem runs_movToXmm : Runs (emit (movToXmm width name src)) fun before after =>
    Brought (.ofName name) [] width (width.cut ((ofName src).read before)) before after := by
  apply Runs.emit
  intro instr hinstr host cpu
  obtain ⟨dst, reg, hdst, hreg, rfl⟩ := of_two hinstr
  refine ⟨_, rfl, ?_⟩
  rw [← of_general hreg, ofName_nameOf]
  have hbring := brought_setXmm width cpu (of_vector hdst) ((cpu.get width reg).setWidth 128)
  rw [BitVec.setWidth_setWidth_of_le _ (by decide)] at hbring
  cases width <;> rw [← cut_cut_self] <;> exact hbring

end Copying

/-! ## Loading operands -/

namespace Target

variable {target : Target} {opnd : Operand} {name : HostRegister}

theorem valueOf_of_constant {isFloat : Bool} {value : BitVec 64}
    (h : (if isFloat then opnd.bits? else opnd.immediate?) = some value) (cpu : Cpu) :
    target.valueOf cpu opnd = (Width.ofType opnd.type).cut value := by
  cases opnd with
  | register | localVar => cases isFloat <;> cases h
  | constant bits type =>
    cases isFloat with
    | true =>
      cases h
      rfl
    | false =>
      cases type with
      | i32 =>
        cases h
        exact congrArg (BitVec.setWidth 64) (setWidth_signExtend _).symm
      | i64 | f32 | f64 =>
        cases h
        rfl

/-- An operand is loaded into a register of its class, a float constant through the
accumulator. -/
theorem runs_fetch {isFloat : Bool} : Runs (target.fetch isFloat opnd name) fun before after =>
    Brought (.ofName name) [.gpr Gpr.rax] (Width.ofType opnd.type)
      (target.valueOf before opnd) before after := by
  have hdirect {emission : Emission} {value : Cpu → BitVec 64}
      (h : Runs emission fun before after => Brought (.ofName name) [] (Width.ofType opnd.type)
        (value before) before after) : Runs emission fun before after =>
      Brought (.ofName name) [.gpr Gpr.rax] (Width.ofType opnd.type) (value before) before after :=
    h.mono fun _ _ h => h.mono (List.nil_subset _)
  rw [fetch]
  split
  next value hvalue =>
    simp only [valueOf_of_constant hvalue]
    split
    · refine (runs_movImm _ value).two (runs_movToXmm _) ?_
      intro first between last hfirst hlast
      exact hfirst.trans (narrower_self _) hlast
    · exact hdirect (runs_movImm _ value)
  next => exact hdirect (Runs.fromHome (fun _ => runs_moveAs _ _) (fun _ => runs_loadAs _ _ _))

/-! ## Storing to homes -/

variable {id : Nat} {home : Location} (type : ValueType)
  (hhome : target.allocation.location? id = some home)
include hhome

theorem runs_keep {isFloat : Bool} :
    Runs (target.keep isFloat (.localVar id type) name) fun before after =>
      Brought (target.cellOf (before.gpr Gpr.rsp) home) [] (Width.ofType type)
        ((Width.ofType type).cut ((ofName name).read before)) before after :=
  Runs.toHome hhome (fun _ => runs_moveAs _ _) (fun _ => runs_storeAs _ _ _)

end Target

end Lowering

end GraphJit
