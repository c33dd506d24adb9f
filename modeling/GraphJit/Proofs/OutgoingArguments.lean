import GraphJit.Proofs.ArgumentPlaces

/-! # Passing arguments

The caller's side of a call. Arguments on the stack come first, then those in
registers. All these moves behave as one: no place of an argument is the home of a
local, and no two arguments share a place. So when control reaches the call, each
argument is in its place with the value that its operand had at the start, and all
locals still have their values.
-/

namespace GraphJit

open X64 Code List
open Gpr (rsp)

/-! ## Places -/

/-- Cells that are written on the way to a place. -/
def Place.scratch : Place → List Cell
  | .register _ => [.gpr Gpr.rax]
  | .stack _ => [.gpr Gpr.rax, .ofName .xmm0]

def Place.isStack : Place → Bool
  | .stack _ => true
  | .register _ => false

theorem Place.apart_of_isStack {place other : Place} (hplace : place.isStack = true)
    (hother : (!other.isStack) = true) : place.Apart other := by
  cases place with
  | register name => cases hplace
  | stack off =>
    cases other with
    | register name => trivial
    | stack otherOffset => cases hother

namespace Lowering

open HostRegister (rax xmm0)

namespace Target

variable {target : Target} {arg : Operand} {args : List Operand} {place : Place}

/-! ## One argument -/

theorem runs_passStack {off : Nat} (hoff : off < 2 ^ 31) :
    Runs (target.passStack arg off) fun before after =>
      Brought (Place.cell (before.gpr rsp) (.stack off)) (Place.scratch (.stack off))
        (Width.ofType arg.type) (target.valueOf before arg) before after := by
  have hcell (cpu : Cpu) : Place.cell (cpu.gpr rsp) (.stack off)
      = .memory (cpu.gpr rsp + (BitVec.ofNat 32 off).signExtend 64) := by
    rw [Place.cell, signExtend_ofNat hoff]
  refine runs_fetch.two (runs_storeAs _ _ _) fun first between last hfirst hlast => ?_
  have hbase : between.gpr rsp = first.gpr rsp :=
    hfirst.1.gpr _ (by cases arg.type <;> decide)
  rw [hbase, ← hcell] at hlast
  refine (hfirst.trans ?_ hlast).mono ?_
  · cases arg.type <;> decide
  · change _ ⊆ [Cell.gpr Gpr.rax, .ofName xmm0]
    cases arg.type <;> decide

/-- Take an argument to its place. -/
def pass (target : Target) (arg : Operand) : Place → Emission
  | .register name => target.fetch arg.type.isFloat arg name
  | .stack off => target.passStack arg off

/-- The move of an argument to its place. -/
def passing (target : Target) (base : BitVec 64) (pair : Operand × Place) : Move where
  emission := target.pass pair.1 pair.2
  cell := pair.2.cell base
  scratch := pair.2.scratch
  width := Width.ofType pair.1.type
  value cpu := target.valueOf cpu pair.1

/-- A place of an outgoing argument. On the stack it lies below the slots of locals. -/
structure Outgoing (target : Target) (place : Place) : Prop extends
    target.convention.Offers place where
  stack : ∀ off, place = .stack off → off + 8 ≤ target.frame.callArgs

theorem rsp_not_written (hplace : target.Outgoing place) (base : BitVec 64) :
    .gpr rsp ∉ (target.passing base (arg, place)).written := by
  cases place with
  | stack off =>
    apply not_mem_cons_of_ne_of_not_mem Cell.noConfusion
    exact show Cell.gpr rsp ∉ [Cell.gpr Gpr.rax, .ofName xmm0] by decide
  | register name =>
    have hname := hplace.register name rfl
    have hnames : ∀ name ∈ target.convention.gpArguments ++ target.convention.vecArguments,
        Cell.gpr rsp ∉ [Cell.ofName name, .gpr Gpr.rax] := by
      cases target.convention <;> decide
    exact hnames name hname

theorem valid_passing (hplace : target.Outgoing place) (base : BitVec 64) :
    (target.passing base (arg, place)).Valid base where
  runs items hitems host cpu hbase := by
    subst hbase
    cases place with
    | register name => exact runs_fetch items hitems host cpu
    | stack off =>
      have hoff : off + 8 ≤ 2 ^ 30 := hplace.within
      exact runs_passStack (by omega) items hitems host cpu
  stackPointer := rsp_not_written hplace base

/-- Passing an argument leaves all homes alone. -/
theorem apart_passing (haside : target.Aside) (hplace : target.Outgoing place) {id : Nat}
    {home : Location} (hhome : target.allocation.location? id = some home) (base : BitVec 64) :
    ∀ cell ∈ (target.passing base (arg, place)).written, (target.cellOf base home).Apart cell := by
  have hrax := haside.apart_rax hhome base
  have hxmm : (target.cellOf base home).Apart (.ofName xmm0) :=
    haside.apart_ofName hhome base (show Cell.Named xmm0 from .inr rfl) (.inl (by decide))
  cases place with
  | register name =>
    have hname := haside.apart_ofName hhome base hplace.within (.inr (hplace.register name rfl))
    exact forall_mem_cons.mpr ⟨hname, forall_mem_singleton.mpr hrax⟩
  | stack off =>
    have hoff : off + 8 ≤ 2 ^ 30 := hplace.within
    have hmemory := haside.apart_memory hhome base (show off < 2 ^ 31 by omega)
      (.inl (hplace.stack off rfl))
    exact forall_mem_cons.mpr ⟨hmemory, forall_mem_cons.mpr ⟨hrax, forall_mem_singleton.mpr hxmm⟩⟩

/-- Stack arguments are passed first, because the way to them leads through a register that may be
one of an argument. -/
theorem ordered_passing (haside : target.Aside) {other : Operand} {otherPlace : Place}
    (hplace : target.Outgoing place) (hother : target.Outgoing otherPlace)
    (hapart : place.Apart otherPlace) (hfirst : otherPlace.isStack = true → place.isStack = true)
    (base : BitVec 64) : (target.passing base (arg, place)).Ordered base
      (target.passing base (other, otherPlace)) where
  result := by
    have hrax := hplace.apart_rax base
    have hcell := Place.apart_cell base hplace.within hother.within hapart
    cases otherPlace with
    | register name => exact forall_mem_cons.mpr ⟨hcell, forall_mem_singleton.mpr hrax⟩
    | stack off =>
      cases place with
      | register name => cases hfirst rfl
      | stack off =>
        exact forall_mem_cons.mpr
          ⟨hcell, forall_mem_cons.mpr ⟨hrax, forall_mem_singleton.mpr trivial⟩⟩
  value before after hbase halter := by
    apply valueOf_altered halter (rsp_not_written hplace base)
    intro id home hhome
    rw [hbase]
    exact apart_passing haside hplace hhome base

/-! ## All arguments -/

/-- The order in which arguments are passed. -/
def inOrder (pairs : List (Operand × Place)) : List (Operand × Place) :=
  pairs.filter (·.2.isStack) ++ pairs.filter (!·.2.isStack)

theorem mem_inOrder {pairs : List (Operand × Place)} {pair : Operand × Place} :
    pair ∈ inOrder pairs ↔ pair ∈ pairs := by
  rw [inOrder, mem_append, mem_filter, mem_filter, ← and_or_left]
  cases pair.2.isStack <;> simp

theorem filterMap_eq_map {choose : Operand × Place → Option Emission}
    {keep : Operand × Place → Bool} {lower : Operand × Place → Emission}
    (hchoose : ∀ pair, choose pair = if keep pair then some (lower pair) else none)
    (pairs : List (Operand × Place)) : pairs.filterMap choose = (pairs.filter keep).map lower := by
  induction pairs with
  | nil => rfl
  | cons pair pairs ih =>
    by_cases hkeep : keep pair = true
    · rw [filterMap_cons_some ((hchoose pair).trans (if_pos hkeep)),
        filter_cons_of_pos hkeep, map_cons, ih]
    · rw [filterMap_cons_none ((hchoose pair).trans (if_neg hkeep)), filter_cons_of_neg hkeep, ih]

/-- The arguments of a call with their places. -/
def argumentPlaces (target : Target) (args : List Operand) : List (Operand × Place) :=
  args.zip (target.convention.places (args.map Operand.type))

theorem passArguments_eq (target : Target) (args : List Operand) :
    target.passArguments args = sequence ((inOrder (target.argumentPlaces args)).map
      fun pair => target.pass pair.1 pair.2) := by
  rw [passArguments, inOrder, map_append]
  refine congrArg sequence (congrArg₂ _ (filterMap_eq_map ?_ _) (filterMap_eq_map ?_ _))
  · rintro ⟨arg, place⟩
    cases place <;> rfl
  · rintro ⟨arg, place⟩
    cases place <;> rfl

/-- The state at a call: each argument is in its place, and locals have kept their values. -/
structure Passed (target : Target) (args : List Operand) (before called : Cpu) : Prop where
  stackPointer : called.gpr rsp = before.gpr rsp
  locals : ∀ opnd, target.valueOf called opnd = target.valueOf before opnd
  places : ∀ arg place, (arg, place) ∈ target.argumentPlaces args →
    (Width.ofType arg.type).cut ((place.cell (before.gpr rsp)).read called)
      = target.valueOf before arg

section Passing

variable (haside : target.Aside) (hcount : args.length < 2 ^ 26)
  (harea : 16 * max args.length 4 ≤ target.frame.callArgs)
include hcount harea

theorem outgoing_of_mem {pair : Operand × Place} (hpair : pair ∈ target.argumentPlaces args) :
    target.Outgoing pair.2 := by
  have hplace := (of_mem_zip hpair).2
  refine ⟨Convention.offers_of_places (by rwa [length_map]) hplace, fun off hoff => ?_⟩
  have hle := stack_le_of_places (hoff ▸ hplace)
  rw [length_map] at hle
  omega

include haside

theorem pairwise_passing (base : BitVec 64) :
    ((inOrder (target.argumentPlaces args)).map (target.passing base)).Pairwise
      (Move.Ordered base) := by
  have hpairwise : (target.argumentPlaces args).Pairwise fun first second =>
      first.2.Apart second.2 := by
    have hplaces := target.convention.pairwise_places (args.map Operand.type)
    have hlength := target.convention.length_places (args.map Operand.type)
    rw [length_map] at hlength
    rwa [← map_snd_zip hlength.le, pairwise_map] at hplaces
  have hord {first second : Operand × Place} (hfirst : first ∈ target.argumentPlaces args)
      (hsecond : second ∈ target.argumentPlaces args) (hapart : first.2.Apart second.2)
      (hstack : second.2.isStack = true → first.2.isStack = true) :
      (target.passing base first).Ordered base (target.passing base second) :=
    ordered_passing haside (outgoing_of_mem hcount harea hfirst)
      (outgoing_of_mem hcount harea hsecond) hapart hstack base
  rw [pairwise_map, inOrder, pairwise_append]
  refine ⟨?_, ?_, ?_⟩
  · refine (hpairwise.filter _).imp_of_mem fun hfirst hsecond hapart => ?_
    rw [mem_filter] at hfirst hsecond
    exact hord hfirst.1 hsecond.1 hapart fun _ => hfirst.2
  · refine (hpairwise.filter _).imp_of_mem fun hfirst hsecond hapart => ?_
    rw [mem_filter] at hfirst hsecond
    refine hord hfirst.1 hsecond.1 hapart fun hstack => ?_
    rw [hstack] at hsecond
    cases hsecond.2
  · -- stack arguments come before those in registers
    intro first hfirst second hsecond
    rw [mem_filter] at hfirst hsecond
    exact hord hfirst.1 hsecond.1 (Place.apart_of_isStack hfirst.2 hsecond.2) fun _ => hfirst.2

/-- The moves of all arguments behave as one. -/
theorem exists_passed {items : List Item} (hitems : target.passArguments args = .ok items)
    (host : Host) (cpu : Cpu) :
    ∃ called, host.execute false items cpu = some called ∧ target.Passed args cpu called := by
  let base := cpu.gpr rsp
  let moves := (inOrder (target.argumentPlaces args)).map (target.passing base)
  have hmove {move : Move} (hmem : move ∈ moves) : ∃ pair ∈ target.argumentPlaces args,
      target.Outgoing pair.2 ∧ move = target.passing base pair := by
    obtain ⟨pair, hpair, rfl⟩ := mem_map.mp hmem
    exact ⟨pair, mem_inOrder.mp hpair, outgoing_of_mem hcount harea (mem_inOrder.mp hpair), rfl⟩
  have hvalid : ∀ move ∈ moves, move.Valid base := by
    intro move hmem
    obtain ⟨pair, -, houtg, rfl⟩ := hmove hmem
    exact valid_passing houtg base
  have hrsp := Move.rsp_not_mem_written hvalid
  rw [passArguments_eq] at hitems
  obtain ⟨called, hcalled, halter, hresults⟩ := Move.exists_execute hvalid
    (pairwise_passing haside hcount harea base) (by rwa [map_map]) host rfl
  refine ⟨called, hcalled, halter.gpr _ hrsp, ?_, ?_⟩
  · apply valueOf_altered halter hrsp
    intro id home hhome cell hcell
    obtain ⟨move, hmem, hcell⟩ := mem_flatMap.mp hcell
    obtain ⟨pair, -, houtg, rfl⟩ := hmove hmem
    exact apart_passing haside houtg hhome base cell hcell
  · intro arg place hpair
    exact hresults _ (mem_map_of_mem (mem_inOrder.mpr hpair))

/-- Loading the address of the callee changes nothing that was passed. -/
theorem Passed.of_accumulated {before called next : Cpu}
    (hpassed : target.Passed args before called)
    (halter : Altered [.gpr Gpr.rax] called next) : target.Passed args before next where
  stackPointer := (halter.gpr _ (by decide)).trans hpassed.stackPointer
  locals opnd := by
    rw [← hpassed.locals opnd]
    apply valueOf_altered halter (by decide)
    intro id home hhome
    exact forall_mem_singleton.mpr (haside.apart_rax hhome _)
  places arg place hpair := by
    have houtg := outgoing_of_mem hcount harea hpair
    rw [← hpassed.places arg place hpair, halter.read_eq]
    exact forall_mem_singleton.mpr (houtg.apart_rax _)

end Passing

/-! ## Calls -/

/-- The code of a call passes the arguments, loads the address of the callee, and calls it. -/
theorem exists_called {op : Operation} {callee : Operand} (haside : target.Aside)
    (hsrcs : op.sources = callee :: args) (hcount : args.length < 2 ^ 26)
    (harea : 16 * max args.length 4 ≤ target.frame.callArgs) {items : List Item}
    (hitems : target.call op = .ok items) :
    ∃ front back, items = front ++ .instr (.callReg Gpr.rax) :: back ∧
      ∀ (host : Host) (cpu : Cpu), ∃ called, host.execute false front cpu = some called ∧
        target.Passed args cpu called ∧
        (Width.ofType callee.type).cut (called.gpr Gpr.rax) = target.valueOf cpu callee := by
  rw [call, sourceOf, hsrcs] at hitems
  change sequence [target.passArguments args, target.fetch false callee rax, _, _] = _ at hitems
  obtain ⟨passed, rest, hpassed, hrest, rfl⟩ := of_sequence_cons hitems
  obtain ⟨loaded, rest, hloaded, hcall, rfl⟩ := of_sequence_cons hrest
  obtain ⟨_, back, ⟨⟩, hback, rfl⟩ := of_sequence_cons hcall
  refine ⟨passed ++ loaded, back, (append_assoc ..).symm, fun host cpu => ?_⟩
  obtain ⟨mid, hmiddle, hplaced⟩ := exists_passed haside hcount harea hpassed host cpu
  obtain ⟨called, hcalled, halter, hvalue⟩ := runs_fetch loaded hloaded host mid
  refine ⟨called, (Host.execute_append _ hmiddle).trans hcalled,
    hplaced.of_accumulated haside hcount harea (halter.mono (by decide)), ?_⟩
  rw [← hplaced.locals callee]
  exact hvalue

end Target

end Lowering

end GraphJit
