import GraphJit.Proofs.ArgumentPlaces
import GraphJit.Proofs.PreservedState

/-! # Receiving arguments

The callee's side of a call. The prologue changes neither argument registers nor the
memory above the frame, and the loads of arguments behave as one move: the homes
they write are no places of arguments, and no two locals share a home. So after
the loads each loaded local has what its argument's place had at the call.
-/

namespace GraphJit

open X64 Code List
open Gpr (rsp)

/-! ## Where arguments arrive -/

namespace Frame

theorem length_members_eq {mask : Mask} (hmask : ∀ i, mask.getLsbD (16 + i) = false) :
    mask.members.length = mask.count := by
  have hmembers : mask.members.map Fin.val = (List.range 16).filter mask.getLsbD := by
    rw [← map_coe_finRange_eq_range, filter_map]
    rfl
  have hhigh : ((List.range 16).map (16 + ·)).filter mask.getLsbD = [] := by
    rw [filter_eq_nil_iff]
    intro i hi
    obtain ⟨k, -, rfl⟩ := mem_map.mp hi
    rw [hmask k]
    exact Bool.false_ne_true
  have hrange : List.range 32 = List.range 16 ++ (List.range 16).map (16 + ·) :=
    @range_add 16 16
  rw [← length_map Fin.val, hmembers, Mask.count, Mask.ids, hrange, filter_append, hhigh,
    append_nil]

variable {frame : Frame} {off : Nat}

theorem signExtend_incomingOffset {disp : BitVec 32} (htotal : frame.totalSize < 2 ^ 31)
    (hoff : off < 2 ^ 31) (hinc : frame.incomingOffset off = .ok disp) :
    disp.signExtend 64 = BitVec.ofNat 64 (frame.totalSize + off) := by
  rw [incomingOffset, toInt_ofNat_of_lt htotal, toInt_ofNat_of_lt hoff] at hinc
  split at hinc
  next hfits =>
    cases hinc
    have hword : twoPow 31 = 2147483648 := rfl
    rw [fitsSigned, decide_eq_true_iff, show 32 - 1 = 31 from rfl, hword] at hfits
    rw [← Int.natCast_add, BitVec.ofInt_natCast]
    exact signExtend_ofNat (by omega)
  next => cases hinc

end Frame

namespace Lowering

open HostRegister (rax)

/-! ## One argument -/

namespace Target

variable {target : Target} {id : Nat} {home : Location} {type : ValueType}

/-- A place of an argument, seen from the body of the function that it comes to. -/
def incomingCell (target : Target) (base : BitVec 64) (place : Place) : Cell :=
  place.cell (base + BitVec.ofNat 64 target.frame.totalSize)

theorem incomingCell_stack (base : BitVec 64) (off : Nat) : target.incomingCell base (.stack off)
      = .memory (base + BitVec.ofNat 64 (target.frame.totalSize + off)) := by
  rw [incomingCell, Place.cell, BitVec.ofNat_add, BitVec.add_assoc]

section Taking

variable (htotal : target.frame.totalSize < 2 ^ 31)
  (hhome : target.allocation.location? id = some home)
include htotal hhome

theorem runs_takeStack {off : Nat} (hoff : off < 2 ^ 31) :
    Runs (target.takeStack (.localVar id type) off) fun before after =>
      Brought (target.cellOf (before.gpr rsp) home) [.gpr Gpr.rax] (Width.ofType type)
        ((Width.ofType type).cut
          ((target.incomingCell (before.gpr rsp) (.stack off)).read before)) before after := by
  intro items hitems
  obtain ⟨disp, hinc, hitems⟩ := of_bind hitems
  have haddr := Frame.signExtend_incomingOffset htotal hoff (liftM_eq_ok hinc)
  simp only [incomingCell_stack, ← haddr]
  change sequence [_, _] = _ at hitems
  -- the argument goes through the accumulator, as bits if it is a float
  refine @Runs.two _ _ (fun before after => Brought (target.cellOf (before.gpr rsp) home) []
    (Width.ofType type) ((Width.ofType type).cut ((Cell.ofName rax).read before)) before after) _ _
    (runs_loadAs false _ disp) ?_ (fun first between last hfirst hlast => ?_) items hitems
  · refine Runs.toHome hhome (fun _ => ?_) (fun _ => runs_storeAs false _ _)
    split
    · exact runs_movToXmm _
    · exact runs_moveAs false _
  · rw [show between.gpr rsp = first.gpr rsp from hfirst.1.gpr _ (by decide)] at hlast
    exact hfirst.trans (narrower_self _) hlast

end Taking

end Target

end Lowering

/-- An operation that loads an argument into a local. -/
def Operation.Loads (op : Operation) (index id : Nat) (type : ValueType) : Prop :=
  op.instruction = .loadArgument index ∧ op.destination = some (.localVar id type)

theorem Operation.Loads.inj {op : Operation} {index id index' id' : Nat} {type type' : ValueType}
    (h : op.Loads index id type) (h' : op.Loads index' id' type') :
    index = index' ∧ id = id' ∧ type = type' := by
  have hinsn := h.1.symm.trans h'.1
  have hdst := h.2.symm.trans h'.2
  cases hinsn
  cases hdst
  exact ⟨rfl, rfl, rfl⟩

namespace Lowering

namespace Target

/-- An argument that a function loads, with the home it goes to and the place it comes from. -/
structure Arrival (target : Target) where
  op : Operation
  index : Nat
  id : Nat
  type : ValueType
  home : Location
  place : Place
  loads : op.Loads index id type
  lives : target.allocation.location? id = some home
  comes : target.arguments[index]? = some place

variable {target : Target}

/-- The move of an argument to the home of its local. -/
def Arrival.move (base : BitVec 64) (arrival : target.Arrival) : Move where
  emission := target.loadArgument arrival.op arrival.index
  cell := target.cellOf base arrival.home
  scratch := [.gpr Gpr.rax]
  width := Width.ofType arrival.type
  value cpu := (Width.ofType arrival.type).cut ((target.incomingCell base arrival.place).read cpu)

/-- What is known about a function that receives arguments. -/
structure Receives (target : Target) : Prop extends target.Aside where
  total : target.frame.totalSize < 2 ^ 31
  offers : ∀ place ∈ target.arguments, target.convention.Offers place

variable {id : Nat} {items : List Item} {type : ValueType}

theorem Placed.rsp_ne_cellOf (hplaced : target.Placed) {home : Location}
    (hhome : target.allocation.location? id = some home) (base : BitVec 64) :
    Cell.gpr rsp ≠ target.cellOf base home := by
  cases home with
  | spill slot => exact fun heq => by cases heq
  | register name =>
    rw [cellOf, Cell.ofName]
    split
    next hgp =>
      rcases hplaced.registers hhome with ⟨-, hrsvd⟩ | hxmm
      · intro heq
        exact hrsvd (Cell.gpr.inj heq ▸ by decide)
      · rw [isGp_of_isXmm hxmm] at hgp
        cases hgp
    next => exact fun heq => by cases heq

namespace Receives

variable (hrecv : target.Receives) {base : BitVec 64}
include hrecv

/-- The frame lies below the stack places of its own arguments. -/
theorem apart_incoming {home : Location}
    (hhome : target.allocation.location? id = some home) {place : Place}
    (hplace : place ∈ target.arguments) :
    (target.cellOf base home).Apart (target.incomingCell base place) := by
  have hoffers := hrecv.offers place hplace
  have htotal := hrecv.total
  cases place with
  | register name =>
    exact hrecv.apart_ofName hhome base hoffers.within (.inr (hoffers.register name rfl))
  | stack off =>
    have hoff : off + 8 ≤ 2 ^ 30 := hoffers.within
    rw [incomingCell_stack]
    cases home with
    | register name => exact Cell.ofName_apart_memory ..
    | spill slot =>
      have hslot := hrecv.slots hhome
      have harea : target.frame.callArgs + target.frame.spill ≤ target.frame.totalSize := by
        rw [Frame.totalSize, Frame.reservedSize]
        omega
      rw [cellOf, signExtend_ofNat (by omega)]
      exact Cell.apart_of_offsets (by omega) (by omega) (by omega)

theorem valid_move (arrival : target.Arrival) : (arrival.move base).Valid base where
  runs items hitems host cpu hbase := by
    subst hbase
    obtain ⟨op, index, id, type, home, place, ⟨_, hdst⟩, hhome, hplace⟩ := arrival
    change target.loadArgument op index = .ok items at hitems
    rw [loadArgument, destinationOf, hdst, hplace] at hitems
    cases place with
    | register name =>
      obtain ⟨next, hnext, hbring⟩ := runs_keep type hhome items hitems host cpu
      exact ⟨next, hnext, hbring.mono (nil_subset _)⟩
    | stack off =>
      have hoff : off + 8 ≤ 2 ^ 30 :=
        (hrecv.offers _ (mem_of_getElem? hplace)).within
      exact runs_takeStack hrecv.total hhome (by omega) items hitems host cpu
  stackPointer := by
    rw [Move.written, mem_cons, not_or]
    exact ⟨hrecv.rsp_ne_cellOf arrival.lives base, show _ ∉ [Cell.gpr Gpr.rax] by decide⟩

theorem ordered_move {first second : target.Arrival} (hne : first.id ≠ second.id) :
    (first.move base).Ordered base (second.move base) where
  result := by
    refine forall_mem_cons.mpr ⟨?_, forall_mem_singleton.mpr ?_⟩
    · exact hrecv.apart_home first.lives base hne second.lives
    · exact hrecv.apart_rax first.lives base
  value before after _ halter := by
    have hplace := mem_of_getElem? second.comes
    refine congrArg (Width.ofType second.type).cut (halter.read_eq ?_)
    refine forall_mem_cons.mpr ⟨?_, forall_mem_singleton.mpr ?_⟩
    · exact (hrecv.apart_incoming first.lives hplace).symm
    · exact (hrecv.offers _ hplace).apart_rax _

/-- The loads of arguments into different locals behave as one move. -/
theorem exists_received {arrivals : List target.Arrival} (hids : (arrivals.map Arrival.id).Nodup)
    (hitems : sequence (arrivals.map fun arrival => target.loadArgument arrival.op arrival.index)
      = .ok items) (host : Host) (cpu : Cpu) : ∃ after, host.execute false items cpu = some after ∧
      (∀ arrival ∈ arrivals, target.valueOf after (.localVar arrival.id arrival.type)
        = (Width.ofType arrival.type).cut
            ((target.incomingCell (cpu.gpr rsp) arrival.place).read cpu)) ∧
      ∀ place ∈ target.arguments, (target.incomingCell (cpu.gpr rsp) place).read after
        = (target.incomingCell (cpu.gpr rsp) place).read cpu := by
  let base := cpu.gpr rsp
  let moves := arrivals.map (Arrival.move base)
  have hvalid : ∀ move ∈ moves, move.Valid base := by
    intro move hmove
    obtain ⟨arrival, -, rfl⟩ := mem_map.mp hmove
    exact hrecv.valid_move arrival
  have hord : moves.Pairwise (Move.Ordered base) := by
    rw [pairwise_map]
    exact (pairwise_map.mp hids).imp fun hne => hrecv.ordered_move hne
  obtain ⟨after, hafter, halter, hresults⟩ := Move.exists_execute hvalid hord
    (by rwa [map_map]) host rfl
  have hbase : after.gpr rsp = base := halter.gpr _ (Move.rsp_not_mem_written hvalid)
  refine ⟨after, hafter, ?_, ?_⟩
  · intro arrival harr
    rw [valueOf_localVar arrival.lives, hbase]
    exact hresults _ (mem_map_of_mem harr)
  · intro place hplace
    apply halter.read_eq
    intro cell hcell
    obtain ⟨move, hmove, hcell⟩ := mem_flatMap.mp hcell
    obtain ⟨arrival, -, rfl⟩ := mem_map.mp hmove
    rcases mem_cons.mp hcell with rfl | hrax
    · exact (hrecv.apart_incoming arrival.lives hplace).symm
    · rw [mem_singleton.mp hrax]
      exact (hrecv.offers place hplace).apart_rax _

end Receives

/-! ## Loads at the start of a function -/

theorem exists_home {use : Location → Emission}
    (hitems : (target.location (.localVar id type) >>= use) = .ok items) :
    ∃ home, target.allocation.location? id = some home := by
  obtain ⟨home, hloc, -⟩ := of_bind hitems
  obtain ⟨_, hid, hhome⟩ := of_location hloc
  cases hid
  exact ⟨home, hhome⟩

theorem exists_home_of_takeStack {off : Nat}
    (hitems : target.takeStack (.localVar id type) off = .ok items) :
    ∃ home, target.allocation.location? id = some home := by
  obtain ⟨disp, -, hitems⟩ := of_bind hitems
  change sequence [_, _] = _ at hitems
  rw [sequence_cons, sequence_single] at hitems
  obtain ⟨fetched, -, hitems⟩ := of_bind hitems
  obtain ⟨kept, hkept, -⟩ := of_bind hitems
  exact exists_home hkept

/-- An argument that is loaded has a place, and its local a home. -/
theorem exists_arrival {op : Operation} {index : Nat} (hloads : op.Loads index id type)
    (hitems : target.loadArgument op index = .ok items) :
    ∃ arrival : target.Arrival, arrival.op = op ∧ arrival.index = index := by
  rw [loadArgument, destinationOf, hloads.2] at hitems
  cases hplace : target.arguments[index]? with
  | none =>
    rw [hplace] at hitems
    cases hitems
  | some place =>
    rw [hplace] at hitems
    have hhome : ∃ home, target.allocation.location? id = some home := by
      cases place with
      | register src => exact exists_home hitems
      | stack off => exact exists_home_of_takeStack hitems
    obtain ⟨home, hhome⟩ := hhome
    exact ⟨⟨op, index, id, type, home, place, hloads, hhome, hplace⟩, rfl, rfl⟩

/-- Loads at the start of a block are lowered to moves from the places of arguments. -/
theorem exists_arrivals {block : Block} {ops : List Operation}
    (hloads : ∀ op ∈ ops, ∃ index id type, op.Loads index id type)
    (hitems : target.operations block true ops = .ok items) :
    ∃ arrivals : List target.Arrival, arrivals.map Arrival.op = ops ∧
      sequence (arrivals.map fun arrival => target.loadArgument arrival.op arrival.index)
        = .ok items := by
  induction ops generalizing items with
  | nil =>
    cases hitems
    exact ⟨[], rfl, rfl⟩
  | cons op ops ih =>
    rw [forall_mem_cons] at hloads
    obtain ⟨⟨index, id, type, hop⟩, hloads⟩ := hloads
    rw [operations, operation, hop.1] at hitems
    obtain ⟨first, rest, hfirst, hrest, rfl⟩ := of_both hitems
    change target.loadArgument op index = .ok first at hfirst
    obtain ⟨arrival, rfl, rfl⟩ := exists_arrival hop hfirst
    obtain ⟨arrivals, rfl, harrivals⟩ := ih hloads hrest
    refine ⟨arrival :: arrivals, rfl, ?_⟩
    rw [map_cons, sequence_cons, hfirst, harrivals]
    rfl

end Target

end Lowering

/-! ## Entering a function -/

theorem Convention.calleeSaved_gp_lt (conv : Convention) : conv.calleeSaved.gp.toNat < 2 ^ 16 := by
  cases conv <;> decide

namespace Frame

variable {conv : Convention}

/-- The frame has room for just the registers that are pushed. -/
theorem length_pushed_of_compute {intUsed vecUsed : Mask} {spill : Nat} {maxArguments : Option Nat}
    {frame : Frame} (hframe : Frame.compute conv intUsed vecUsed spill maxArguments = .ok frame) :
    frame.pushed.length = frame.pushedCount := by
  rw [pushed, length_map, pushedCount]
  apply length_members_eq
  intro i
  have hsaved : frame.intSaved = conv.calleeSaved.gp &&& intUsed :=
    congrArg RegisterSet.gp (of_compute hframe).saved
  have hlow : conv.calleeSaved.gp.toNat < 2 ^ (16 + i) :=
    conv.calleeSaved_gp_lt.trans_le (Nat.pow_le_pow_right (by decide) (Nat.le_add_right 16 i))
  rw [hsaved, BitVec.getLsbD_and, BitVec.getLsbD, Nat.testBit_lt_two_pow hlow, Bool.false_and]

variable {frame : Frame} {called mid : Cpu} {addr : BitVec 64}
  (hsetUp : frame.SetUp (called.push addr) mid)
include hsetUp

/-- The stack pointer of the caller is a frame above that of the body. -/
theorem SetUp.add_totalSize (hpushes : frame.pushed.length = frame.pushedCount) :
    mid.gpr rsp + BitVec.ofNat 64 frame.totalSize = called.gpr rsp := by
  have hptr := hsetUp.stackPointer
  rw [Cpu.gpr_push_rsp, hpushes] at hptr
  have htotal : frame.totalSize = frame.reservedSize + 8 * frame.pushedCount + 8 := by
    rw [totalSize, wordBytes, returnAddressBytes]
    omega
  rw [htotal, BitVec.ofNat_add, ← BitVec.add_assoc, ← hptr]
  exact BitVec.sub_add_cancel ..

/-- Arguments stay in their places while a function is entered. -/
theorem SetUp.read_place {place : Place} (hplace : conv.Offers place) :
    (place.cell (called.gpr rsp)).read mid = (place.cell (called.gpr rsp)).read called := by
  cases place with
  | register name =>
    have hptr := hplace.apart_rsp (called.gpr rsp)
    change (Cell.ofName name).read mid = (Cell.ofName name).read called
    change (Cell.ofName name).Apart _ at hptr
    rw [Cell.ofName] at hptr ⊢
    split
    next hgp =>
      rw [if_pos hgp] at hptr
      exact (hsetUp.gpr _ hptr).trans (called.gpr_push_of_ne addr hptr)
    next =>
      rw [Cell.read, hsetUp.xmm]
      rfl
  | stack off =>
    have hoff : off + 8 ≤ 2 ^ 30 := hplace.within
    apply Memory.read_congr
    intro i hi
    -- the return address is the word below the place
    have hword : called.gpr rsp + BitVec.ofNat 64 off + BitVec.ofNat 64 i
        = (called.push addr).gpr rsp + BitVec.ofNat 64 (8 + off + i) := by
      rw [Cpu.gpr_push_rsp]
      bv_omega
    have habove := hsetUp.above (8 + off + i) (by omega)
    rw [← hword] at habove
    rw [habove, BitVec.add_assoc, ← BitVec.ofNat_add]
    exact called.memory_push addr (by omega)

end Frame

namespace Lowering.Target

/-- The state behind loads of arguments: each local has what was in the place of its argument at
the call, and all places are as they were there. -/
structure Received (target : Target) (loads : List Operation) (called after : Cpu) : Prop where
  locals : ∀ op ∈ loads, ∀ index id type, op.Loads index id type →
    ∃ place, target.arguments[index]? = some place ∧ target.valueOf after (.localVar id type)
      = (Width.ofType type).cut ((place.cell (called.gpr rsp)).read called)
  places : ∀ place ∈ target.arguments, (place.cell (called.gpr rsp)).read after
    = (place.cell (called.gpr rsp)).read called

variable {target : Target}

theorem map_id_eq (arrivals : List target.Arrival) : arrivals.map Arrival.id
    = (arrivals.map Arrival.op).filterMap fun op => op.destination.bind Operand.localId? := by
  rw [filterMap_map, ← List.filterMap_eq_map]
  apply filterMap_congr
  intro arrival _
  change some arrival.id = arrival.op.destination.bind Operand.localId?
  rw [arrival.loads.2]
  rfl

/-- A function that is entered and loads arguments receives what was in their places. -/
theorem Receives.exists_entered (hrecv : target.Receives) (hsound : target.frame.Sound)
    (hpushes : target.frame.pushed.length = target.frame.pushedCount) {block : Block}
    {loads : List Operation} {items : List Item}
    (hloads : ∀ op ∈ loads, ∃ index id type, op.Loads index id type)
    (hdist : (loads.filterMap fun op => op.destination.bind Operand.localId?).Nodup)
    (hitems : target.operations block true loads = .ok items) (host : Host) (called : Cpu)
    (addr : BitVec 64) :
    ∃ after, host.execute false (target.frame.prologue.map .instr ++ items) (called.push addr)
        = some after ∧ target.Received loads called after := by
  obtain ⟨arrivals, rfl, hmoves⟩ := exists_arrivals hloads hitems
  obtain ⟨mid, hmiddle, hsetUp⟩ := Frame.exists_setUp host hsound (called.push addr)
  rw [← map_id_eq] at hdist
  obtain ⟨after, hafter, hlocals, hplaces⟩ := hrecv.exists_received hdist hmoves host mid
  have hcell (place : Place) : target.incomingCell (mid.gpr rsp) place
      = place.cell (called.gpr rsp) := by
    rw [incomingCell, hsetUp.add_totalSize hpushes]
  have hplace {place : Place} (hmem : place ∈ target.arguments) :=
    hsetUp.read_place (hrecv.offers place hmem)
  refine ⟨after, (Host.execute_append _ hmiddle).trans hafter, ?_, ?_⟩
  · intro op hop index id type hop'
    obtain ⟨arrival, harr, rfl⟩ := mem_map.mp hop
    obtain ⟨rfl, rfl, rfl⟩ := arrival.loads.inj hop'
    refine ⟨arrival.place, arrival.comes, ?_⟩
    rw [hlocals arrival harr, hcell, hplace (mem_of_getElem? arrival.comes)]
  · intro place hmem
    rw [← hcell, hplaces place hmem, hcell, hplace hmem]

end Lowering.Target

end GraphJit
