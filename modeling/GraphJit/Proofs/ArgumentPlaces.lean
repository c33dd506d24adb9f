import GraphJit.Proofs.FrameSetup
import GraphJit.Proofs.OperandMoves
import GraphJit.Proofs.SeparateHomes

/-! # Places of arguments

Both conventions give every argument of a signature a place of its own: no register
is used twice, and stack places are eight bytes each. Places are no homes of
locals either, since no local lives in an argument register.
-/

namespace GraphJit

open X64 List

/-- Two places that have no bits in common. -/
def Place.Apart : Place → Place → Prop
  | .register name, .register other => name ≠ other
  | .stack off, .stack other => off + 8 ≤ other ∨ other + 8 ≤ off
  | _, _ => True

namespace Convention

variable {gp vec : List HostRegister} {stack off : Nat} {types : List ValueType}

theorem length_placeByClass (gp vec : List HostRegister) (stack : Nat) (types : List ValueType) :
    (placeByClass gp vec stack types).length = types.length := by
  fun_induction placeByClass gp vec stack types with
  | case1 => rfl
  | case2 | case3 | case4 | case5 => simp_all

theorem length_places (conv : Convention) (types : List ValueType) :
    (conv.places types).length = types.length := by
  cases conv with
  | sysv => exact length_placeByClass ..
  | win64 => exact (length_map ..).trans length_zipIdx

variable {rest : List Place}

/-- A register that is taken from the front is not given out again. -/
theorem apart_register {name : HostRegister} {left : List HostRegister} (hname : name ∉ left)
    (hrest : ∀ other, .register other ∈ rest → other ∈ left) :
    ∀ place ∈ rest, Place.Apart (.register name) place := by
  intro place hplace
  cases place with
  | stack off => trivial
  | register other =>
    rintro rfl
    exact hname (hrest _ hplace)

/-- A stack place that is taken is not given out again. -/
theorem apart_stack (hrest : ∀ off, .stack off ∈ rest → stack + 8 ≤ off) :
    ∀ place ∈ rest, Place.Apart (.stack stack) place := by
  intro place hplace
  cases place with
  | register name => trivial
  | stack off => exact .inl (hrest off hplace)

theorem pairwise_placeByClass (hnodup : (gp ++ vec).Nodup) :
    (placeByClass gp vec stack types).Pairwise Place.Apart := by
  fun_induction placeByClass gp vec stack types with
  | case1 => exact .nil
  | case2 vec stack type types htype reg gp ih =>
    rw [cons_append, nodup_cons] at hnodup
    refine .cons (apart_register hnodup.1 fun other hother => ?_) (ih hnodup.2)
    exact Lowering.register_mem_of_placeByClass hother
  | case3 vec stack type types htype ih =>
    exact .cons (apart_stack fun off hoff => (stack_of_placeByClass hoff).1) (ih hnodup)
  | case4 gp stack type types htype reg vec ih =>
    rw [nodup_middle, nodup_cons] at hnodup
    refine .cons (apart_register hnodup.1 fun other hother => ?_) (ih hnodup.2)
    exact Lowering.register_mem_of_placeByClass hother
  | case5 gp stack type types htype ih =>
    exact .cons (apart_stack fun off hoff => (stack_of_placeByClass hoff).1) (ih hnodup)

theorem pairwise_placeByPosition (hnodup : (gp ++ vec).Nodup) :
    (placeByPosition gp vec types).Pairwise Place.Apart := by
  obtain ⟨hgp, hvec, hdisj⟩ := nodup_append.mp hnodup
  -- registers at different positions differ, in one list or in two
  have hreg {i j : Nat} {first second : ValueType} {name other : HostRegister} (hne : i ≠ j)
      (hname : (if first.isInteger then gp else vec)[i]? = some name)
      (hother : (if second.isInteger then gp else vec)[j]? = some other) : name ≠ other := by
    rintro rfl
    split at hname <;> split at hother
    · exact hne ((getElem?_inj (Code.lt_length hname) hgp).mp (hname.trans hother.symm))
    · exact hdisj _ (mem_of_getElem? hname) _ (mem_of_getElem? hother) rfl
    · exact hdisj _ (mem_of_getElem? hother) _ (mem_of_getElem? hname) rfl
    · exact hne ((getElem?_inj (Code.lt_length hname) hvec).mp (hname.trans hother.symm))
  rw [placeByPosition, pairwise_map, pairwise_iff_getElem]
  intro i j hi hj hlt
  rw [getElem_zipIdx, getElem_zipIdx, Nat.zero_add, Nat.zero_add]
  dsimp only
  split
  next name hname =>
    split
    next other hother => exact hreg hlt.ne hname hother
    next => trivial
  next =>
    split
    next => trivial
    next => exact .inl (by omega)

/-- No two arguments share a place. -/
theorem pairwise_places (conv : Convention) (types : List ValueType) :
    (conv.places types).Pairwise Place.Apart := by
  cases conv with
  | sysv => exact pairwise_placeByClass (by decide)
  | win64 => exact pairwise_placeByPosition (by decide)

end Convention

/-! ## Cells apart -/

namespace X64.Cell

open Lowering (gprOf xmmOf nameOf_gprOf isGp_of_isGpr isGp_of_isXmm isGpr isXmm vectorNameOf)

variable {name : HostRegister}

theorem vectorNameOf_xmmOf (hname : isXmm name = true) : vectorNameOf (xmmOf name) = name := by
  rw [isXmm, Bool.and_eq_true, beq_iff_eq, decide_eq_true_eq] at hname
  rw [vectorNameOf, xmmOf, nibble, HostRegister.xmm, ← hname.1]
  congr
  exact Nat.mod_eq_of_lt hname.2

/-- A name that some register has. -/
def Named (name : HostRegister) : Prop := isGpr name = true ∨ isXmm name = true

theorem apart_ofName {other : HostRegister} (hname : Named name) (hother : Named other)
    (hne : name ≠ other) : (ofName name).Apart (ofName other) := by
  rcases hname with hname | hname <;> rcases hother with hother | hother
  · rw [ofName, if_pos (isGp_of_isGpr hname), ofName, if_pos (isGp_of_isGpr hother)]
    intro heq
    exact hne (nameOf_gprOf hname ▸ nameOf_gprOf hother ▸ congrArg _ heq)
  · rw [ofName, if_pos (isGp_of_isGpr hname), ofName, isGp_of_isXmm hother]
    trivial
  · rw [ofName, isGp_of_isXmm hname, ofName, if_pos (isGp_of_isGpr hother)]
    trivial
  · rw [ofName, isGp_of_isXmm hname, ofName, isGp_of_isXmm hother]
    intro heq
    exact hne (vectorNameOf_xmmOf hname ▸ vectorNameOf_xmmOf hother ▸ congrArg _ heq)

theorem ofName_apart_memory (name : HostRegister) (addr : BitVec 64) :
    (ofName name).Apart (.memory addr) := by
  rw [ofName]
  split <;> trivial

theorem Apart.symm {cell other : Cell} (h : cell.Apart other) : other.Apart cell := by
  cases cell with
  | gpr reg =>
    cases other with
    | gpr otherRegister => exact Ne.symm h
    | xmm | memory => trivial
  | xmm reg =>
    cases other with
    | xmm otherRegister => exact Ne.symm h
    | gpr | memory => trivial
  | memory addr =>
    cases other with
    | gpr | xmm => trivial
    | memory otherAddress =>
      -- a common byte is one of the first cell too
      intro i hi
      by_contra hnear
      have hfar := h (otherAddress + BitVec.ofNat 64 i - addr).toNat (by omega)
      bv_omega

theorem apart_of_offsets {base : BitVec 64} {off other : Nat} (hoff : off < 2 ^ 33)
    (hother : other < 2 ^ 33) (hapart : off + 8 ≤ other ∨ other + 8 ≤ off) :
    (Cell.memory (base + BitVec.ofNat 64 off)).Apart (.memory (base + BitVec.ofNat 64 other)) := by
  intro i hi
  bv_omega

end X64.Cell

open X64.Cell (Named)

/-- The cell of a place, given the stack pointer at the call. -/
def Place.cell (base : BitVec 64) : Place → Cell
  | .register name => .ofName name
  | .stack off => .memory (base + BitVec.ofNat 64 off)

/-- A place that exists: a register, or an offset within reach. -/
def Place.Exists : Place → Prop
  | .register name => Named name
  | .stack off => off + 8 ≤ 2 ^ 30

variable {place : Place} {conv : Convention} {types : List ValueType}

theorem Place.exists_of_places (hcount : types.length < 2 ^ 26)
    (hplace : place ∈ conv.places types) : place.Exists := by
  cases place with
  | stack off =>
    have := stack_le_of_places hplace
    change off + 8 ≤ 2 ^ 30
    omega
  | register name =>
    have hnames : ∀ name ∈ conv.gpArguments ++ conv.vecArguments,
        Lowering.isGpr name = true ∨ Lowering.isXmm name = true := by
      cases conv <;> decide
    exact hnames name (Lowering.register_mem_of_places hplace)

/-- A place that a convention passes arguments in. -/
structure Convention.Offers (conv : Convention) (place : Place) : Prop where
  within : place.Exists
  register : ∀ name, place = .register name →
    name ∈ conv.gpArguments ++ conv.vecArguments

theorem Convention.offers_of_places (hcount : types.length < 2 ^ 26)
    (hplace : place ∈ conv.places types) : conv.Offers place where
  within := Place.exists_of_places hcount hplace
  register _ hname := Lowering.register_mem_of_places (hname ▸ hplace)

section

variable (hplace : conv.Offers place)
include hplace

theorem Convention.Offers.apart_ofName {name : HostRegister} (hnamed : Named name)
    (hname : name ∉ conv.gpArguments ++ conv.vecArguments) (base : BitVec 64) :
    (place.cell base).Apart (.ofName name) := by
  cases place with
  | stack off => exact (X64.Cell.ofName_apart_memory ..).symm
  | register arg =>
    apply X64.Cell.apart_ofName hplace.within hnamed
    rintro rfl
    exact hname (hplace.register _ rfl)

theorem Convention.Offers.apart_rax (base : BitVec 64) :
    (place.cell base).Apart (.gpr Gpr.rax) := by
  apply hplace.apart_ofName (show Named .rax from .inl rfl)
  cases conv <;> decide

theorem Convention.Offers.apart_rsp (base : BitVec 64) :
    (place.cell base).Apart (.gpr Gpr.rsp) := by
  apply hplace.apart_ofName (show Named .rsp from .inl rfl)
  cases conv <;> decide

end

theorem Place.apart_cell {other : Place} (base : BitVec 64) (hplace : place.Exists)
    (hother : other.Exists) (hapart : place.Apart other) :
    (place.cell base).Apart (other.cell base) := by
  cases place with
  | register name =>
    cases other with
    | register otherName => exact X64.Cell.apart_ofName hplace hother hapart
    | stack off => exact X64.Cell.ofName_apart_memory ..
  | stack off =>
    cases other with
    | register name => exact (X64.Cell.ofName_apart_memory ..).symm
    | stack otherOffset =>
      have hplace : off + 8 ≤ 2 ^ 30 := hplace
      have hother : otherOffset + 8 ≤ 2 ^ 30 := hother
      exact X64.Cell.apart_of_offsets (by omega) (by omega) hapart

/-! ## Homes of locals -/

namespace Lowering

/-- Locals have homes of their own, and none in a register that arguments are passed in or
operations are computed in. -/
structure Target.Aside (target : Target) : Prop extends target.Placed where
  names : ∀ {id : Nat} {name : HostRegister},
    target.allocation.location? id = some (.register name) → Named name ∧ name ∉ scratchNames ∧
      name ∉ target.convention.gpArguments ++ target.convention.vecArguments

theorem aside_of_generate {graph : Graph} {limit : Option Nat} {opts : Options} {alloc : Allocation}
    {args : List ValueType} {compiled : CompiledFunction}
    (hgreedy : Allocation.greedy limit opts.convention graph = .ok alloc)
    (hgen : graph.generate opts alloc args = .ok compiled) :
    (targetOf opts alloc compiled.frame args).Aside where
  toPlaced := placed_of_generate hgreedy hgen
  names hhome := by
    obtain ⟨hregs, -⟩ := Allocation.drawn_of_greedy hgreedy
    obtain ⟨hclass, hscr, harg⟩ := of_allocatable (hregs hhome).2
    exact ⟨hclass.imp_left And.left, hscr, harg⟩

namespace Target.Aside

variable {target : Target} (haside : target.Aside) {id : Nat} {home : Location}
  (hhome : target.allocation.location? id = some home)
include haside hhome

theorem apart_ofName (base : BitVec 64) {name : HostRegister} (hnamed : Named name)
    (hname : name ∈ scratchNames ∨
      name ∈ target.convention.gpArguments ++ target.convention.vecArguments) :
    (target.cellOf base home).Apart (.ofName name) := by
  cases home with
  | spill slot => exact (X64.Cell.ofName_apart_memory ..).symm
  | register other =>
    obtain ⟨hother, hscr, harg⟩ := haside.names hhome
    apply X64.Cell.apart_ofName hother hnamed
    rintro rfl
    exact hname.elim hscr harg

theorem apart_rax (base : BitVec 64) : (target.cellOf base home).Apart (.gpr Gpr.rax) :=
  haside.apart_ofName hhome base (show Named .rax from .inl rfl) (.inl (by decide))

/-- Slots lie between the outgoing arguments and the saved registers. -/
theorem apart_memory (base : BitVec 64) {off : Nat} (hoff : off < 2 ^ 31)
    (hapart : off + 8 ≤ target.frame.callArgs ∨ target.frame.callArgs + target.frame.spill ≤ off) :
    (target.cellOf base home).Apart (.memory (base + BitVec.ofNat 64 off)) := by
  cases home with
  | register name => exact X64.Cell.ofName_apart_memory ..
  | spill slot =>
    have hslot := haside.slots hhome
    have harea : target.frame.callArgs + target.frame.spill ≤ 2 ^ 32 := haside.area
    intro i hi
    rw [← signExtend_ofNat hoff]
    exact apart_of_displacements (by omega) (by omega) (by omega) hi

theorem apart_home (base : BitVec 64) {other : Nat} {otherHome : Location} (hne : id ≠ other)
    (hother : target.allocation.location? other = some otherHome) :
    (target.cellOf base home).Apart (target.cellOf base otherHome) := by
  have hapart := haside.apart hne hhome hother
  cases home with
  | register name =>
    cases otherHome with
    | register otherName =>
      exact X64.Cell.apart_ofName (haside.names hhome).1 (haside.names hother).1 hapart
    | spill slot => exact X64.Cell.ofName_apart_memory ..
  | spill slot =>
    cases otherHome with
    | register name => exact (X64.Cell.ofName_apart_memory ..).symm
    | spill otherSlot =>
      have hslot := haside.slots hhome
      have hotherSlot := haside.slots hother
      have harea : target.frame.callArgs + target.frame.spill ≤ 2 ^ 32 := haside.area
      have hapart : slot + 8 ≤ otherSlot ∨ otherSlot + 8 ≤ slot := hapart
      intro i hi
      exact apart_of_displacements (by omega) (by omega) (by omega) hi

end Target.Aside

end Lowering

end GraphJit
