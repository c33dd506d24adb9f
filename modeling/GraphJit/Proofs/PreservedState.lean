import GraphJit.Proofs.BodyInstructions
import GraphJit.Proofs.FrameSetup

/-! # Functions preserve the state of their callers

A run of generated code is followed through three phases: the prologue, the body and
an epilogue. In the body the stack pointer, the registers to be preserved that the
frame does not save, and the upper part of the frame stay as the prologue left them.
So every return finds the return address on top of the stack and all preserved
registers with their values at entry. What the code cannot know is assumed: called
functions keep to the convention, and neither they nor stores through pointers
write to the upper part of the frame. A graph that goes back to its entry runs the
prologue once more, and such a function does not return to its caller.
-/

namespace GraphJit

open X64 Code List
open Gpr (rsp)

namespace X64.Instr

/-- Whether an instruction calls a function. -/
def isCall : Instr → Bool
  | .callReg _ => true
  | _ => false

/-- Whether an instruction may write to memory that its code does not determine. -/
def isForeign (instr : Instr) : Bool :=
  instr.isCall || instr.stored?.any fun stored => stored.1.base != rsp

end X64.Instr

namespace Lowering

/-! ## Assumptions -/

/-- What is expected of one instruction: a call preserves what the convention says, and memory that
is guarded is not written through pointers or by called functions. -/
structure Courtesy (conv : Convention) (guarded : BitVec 64 → Prop) (instr : Instr)
    (before after : Cpu) : Prop where
  memory : instr.isForeign = true → ∀ address, guarded address →
    after.memory address = before.memory address
  stackPointer : instr.isCall = true → after.gpr rsp = before.gpr rsp
  gpr : instr.isCall = true → ∀ reg, conv.calleeSaved.contains (nameOf reg) = true →
      after.gpr reg = before.gpr reg
  xmm : instr.isCall = true → ∀ reg,
    conv.calleeSaved.contains (vectorNameOf reg) = true →
      after.xmm reg = before.xmm reg

/-- All instructions of a run are as expected. -/
def Courteous (host : Host) (conv : Convention) (code : List UInt8)
    (guarded : BitVec 64 → Prop) (start : Status) : Prop :=
  ∀ pos before after extended instr rest, host.Reaches code start (.running pos before) →
    readInstr.run (code.drop pos) = some ((extended, instr), rest) →
    host.exec before instr = some after → Courtesy conv guarded instr before after

/-! ## Inside the body -/

/-- A state in the body of a function agrees with the one after the prologue. -/
structure Agrees (conv : Convention) (frame : Frame) (mid cpu : Cpu) : Prop where
  stackPointer : cpu.gpr rsp = mid.gpr rsp
  gpr : ∀ reg, conv.calleeSaved.contains (nameOf reg) = true →
    frame.saved.contains (nameOf reg) = false → cpu.gpr reg = mid.gpr reg
  xmm : ∀ reg, conv.calleeSaved.contains (vectorNameOf reg) = true →
    frame.saved.contains (vectorNameOf reg) = false → cpu.xmm reg = mid.xmm reg
  memory : ∀ address, frame.Guards (mid.gpr rsp) address →
    cpu.memory address = mid.memory address

variable {host : Host} {target : Target} {mid cpu next : Cpu} {instr : Instr}

theorem Agrees.refl (conv : Convention) (frame : Frame) (cpu : Cpu) : Agrees conv frame cpu cpu :=
  ⟨rfl, fun _ _ _ => rfl, fun _ _ _ => rfl, fun _ _ => rfl⟩

section

variable (hresp : target.Respects instr) (htotal : target.frame.totalSize < 2 ^ 31)
include hresp htotal

/-- What is stored relative to the stack pointer lies below the guarded part of the frame. -/
theorem Target.Respects.le_sub {place : Address} {bytes : Nat}
    (hstored : instr.stored? = some (place, bytes)) (hbase : place.base = rsp)
    {address : BitVec 64} (hguards : target.frame.Guards (cpu.gpr rsp) address) :
    bytes ≤ (address - cpu.resolve place).toNat := by
  obtain ⟨off, hdisp, harea⟩ := hresp.stored place bytes hstored hbase
  obtain ⟨hlow, hhigh⟩ := hguards
  have hbelow : off + bytes ≤ target.frame.callArgs + target.frame.spill := by
    rcases harea with hargs | ⟨slot, hslot, -, hstop⟩
    · omega
    · omega
  have haddr : address = cpu.gpr rsp + BitVec.ofNat 64 (address - cpu.gpr rsp).toNat := by
    rw [BitVec.ofNat_toNat, BitVec.setWidth_eq, BitVec.add_comm, BitVec.sub_add_cancel]
  have hdistance := Frame.offset_sub (cpu.gpr rsp)
    (show off ≤ (address - cpu.gpr rsp).toNat by omega) (BitVec.isLt _)
  rw [← haddr] at hdistance
  rw [HostState.resolve, hbase, hdisp, signExtend_ofNat (by omega), hdistance]
  omega

theorem Agrees.exec (hagrees : Agrees target.convention target.frame mid cpu)
    (hexec : host.exec cpu instr = some next)
    (hcourt : Courtesy target.convention (target.frame.Guards (mid.gpr rsp)) instr cpu
      next) : Agrees target.convention target.frame mid next := by
  cases hcall : instr.isCall with
  | true =>
    have hforeign : instr.isForeign = true := by rw [Instr.isForeign, hcall, Bool.true_or]
    constructor
    · exact (hcourt.stackPointer hcall).trans hagrees.stackPointer
    · intro reg hsaved hunsaved
      exact (hcourt.gpr hcall reg hsaved).trans (hagrees.gpr reg hsaved hunsaved)
    · intro reg hsaved hunsaved
      exact (hcourt.xmm hcall reg hsaved).trans (hagrees.xmm reg hsaved hunsaved)
    · intro address hguards
      exact (hcourt.memory hforeign address hguards).trans (hagrees.memory address hguards)
  | false =>
    have hlocal : instr.isLocal = true := by
      cases instr with
      | callReg => cases hcall
      | push reg => exact absurd mem_cons_self hresp.stackPointer
      | _ => rfl
    have hkept := Host.kept_of_exec hlocal hexec
    have hunwritten {name : HostRegister}
        (hsaved : target.convention.calleeSaved.contains name = true)
        (hunsaved : target.frame.saved.contains name = false) : name ∉ instr.written := by
      intro hname
      rw [hresp.saved name hname hsaved] at hunsaved
      cases hunsaved
    constructor
    · exact (hkept.gpr rsp hresp.stackPointer).trans hagrees.stackPointer
    · intro reg hsaved hunsaved
      exact (hkept.gpr reg (hunwritten hsaved hunsaved)).trans (hagrees.gpr reg hsaved hunsaved)
    · intro reg hsaved hunsaved
      exact (hkept.xmm reg (hunwritten hsaved hunsaved)).trans (hagrees.xmm reg hsaved hunsaved)
    · intro address hguards
      rw [← hagrees.memory address hguards]
      cases hforeign : instr.isForeign with
      | true => exact hcourt.memory hforeign address hguards
      | false =>
        apply hkept.memory
        intro place bytes hstored
        rw [← hagrees.stackPointer] at hguards
        apply hresp.le_sub htotal hstored _ hguards
        rw [Instr.isForeign, hcall, hstored] at hforeign
        exact bne_eq_false_iff_eq.mp hforeign

end

/-! ## The items of a body -/

/-- Items behind the prologue: respectful instructions, jumps that do not lead to the entry, and
whole epilogues. -/
inductive Target.Body (target : Target) : List Item → Prop
  | nil : Body target []
  | instr {instr : Instr} {items : List Item} (hinstr : target.Respects instr)
      (hrest : Body target items) : Body target (.instr instr :: items)
  | openNear {cond : Condition} {items : List Item} (hrest : Body target items) :
      Body target (.openNear cond :: items)
  | closeNear {items : List Item} (hrest : Body target items) : Body target (.closeNear :: items)
  | enter {b : Nat} {items : List Item} (hrest : Body target items) :
      Body target (.enter b :: items)
  | jump {cond : Option Condition} {s : Nat} {items : List Item} (hs : s ≠ Graph.entry)
      (hrest : Body target items) : Body target (.jump cond s :: items)
  | epilogue {items : List Item} (hrest : Body target items) :
      Body target (target.frame.epilogue.map .instr ++ items)

namespace Target.Body

variable {items others : List Item}

theorem append (h : target.Body items) (hothers : target.Body others) :
    target.Body (items ++ others) := by
  induction h with
  | nil => exact hothers
  | instr hinstr _ ih => exact .instr hinstr ih
  | openNear _ ih => exact .openNear ih
  | closeNear _ ih => exact .closeNear ih
  | enter _ ih => exact .enter ih
  | jump hs _ ih => exact .jump hs ih
  | epilogue _ ih =>
    rw [append_assoc]
    exact .epilogue ih

variable {block : Block} {parts : List (List Item)} {item : Item}

theorem flatten (h : ∀ part ∈ parts, target.Body part) : target.Body parts.flatten := by
  induction parts with
  | nil => exact .nil
  | cons part parts ih =>
    rw [forall_mem_cons] at h
    exact h.1.append (ih h.2)

theorem instrs {instrs : List Instr} (h : ∀ instr ∈ instrs, target.Respects instr) :
    target.Body (instrs.map .instr) := by
  induction instrs with
  | nil => exact .nil
  | cons instr instrs ih =>
    rw [forall_mem_cons] at h
    exact .instr h.1 (ih h.2)

theorem of_straight (h : Straight target.Respects items) : target.Body items := by
  induction h with
  | nil => exact .nil
  | instr hinstr _ ih => exact .instr hinstr ih
  | skip _ hskip _ ih => exact .openNear ((instrs hskip).append (.closeNear ih))

section

variable (hentry : Graph.entry ∉ block.successors)
include hentry

theorem jumps (h : ∀ item ∈ items, ∃ cond, ∃ s ∈ block.successors, item = .jump cond s) :
    target.Body items := by
  induction items with
  | nil => exact .nil
  | cons item items ih =>
    rw [forall_mem_cons] at h
    obtain ⟨⟨cond, s, hs, rfl⟩, hrest⟩ := h
    apply Body.jump _ (ih hrest)
    rintro rfl
    exact hentry hs

theorem of_part {op : Operation} (h : target.Part block op items) : target.Body items := by
  cases h with
  | straight _ hstraight => exact of_straight hstraight
  | returned _ hloads =>
    apply (instrs hloads).append
    rw [← append_nil (List.map _ _)]
    exact .epilogue .nil
  | branches _ _ hinstrs hjumps => exact (instrs hinstrs).append (jumps hentry hjumps)

theorem of_parts {ops : List Operation} (h : Forall₂ (target.Part block) ops parts) :
    target.Body parts.flatten := by
  induction h with
  | nil => exact .nil
  | cons hpart _ ih => exact (of_part hentry hpart).append ih

end

/-- Behind an item that is no instruction there is a body again. -/
theorem drop (h : target.Body items) {i : Nat} (hitem : items[i]? = some item)
    (hne : ∀ instr, item ≠ .instr instr) : target.Body (items.drop i) := by
  induction h generalizing i with
  | nil => cases hitem
  | instr hinstr hrest ih =>
    cases i with
    | zero => exact absurd (Option.some.inj hitem).symm (hne _)
    | succ i => exact ih hitem
  | openNear hrest ih | closeNear hrest ih | enter hrest ih =>
    cases i with
    | zero =>
      constructor
      exact hrest
    | succ i => exact ih hitem
  | jump hs hrest ih =>
    cases i with
    | zero => exact .jump hs hrest
    | succ i => exact ih hitem
  | epilogue hrest ih =>
    by_cases hi : i < (target.frame.epilogue.map Item.instr).length
    · rw [getElem?_append_left hi] at hitem
      obtain ⟨instr, -, rfl⟩ := mem_map.mp (mem_of_getElem? hitem)
      exact absurd rfl (hne instr)
    · rw [getElem?_append_right (Nat.le_of_not_lt hi)] at hitem
      rw [drop_append, drop_of_length_le (Nat.le_of_not_lt hi), nil_append]
      exact ih hitem

theorem of_cons (h : target.Body (item :: items)) (hne : ∀ instr, item ≠ .instr instr) :
    target.Body items ∧ ∀ cond s, item = .jump cond s → s ≠ Graph.entry := by
  generalize hsuffix : item :: items = suffix at h
  cases h with
  | nil => cases hsuffix
  | instr =>
    cases hsuffix
    exact absurd rfl (hne _)
  | openNear hrest | closeNear hrest | enter hrest =>
    cases hsuffix
    refine ⟨hrest, fun cond s hjump => ?_⟩
    cases hjump
  | jump hs hrest =>
    cases hsuffix
    refine ⟨hrest, fun cond s hjump => ?_⟩
    cases hjump
    exact hs
  | epilogue =>
    -- an epilogue is not empty, and starts with an instruction
    cases hepilogue : target.frame.epilogue with
    | nil =>
      have hlast := epilogue_eq target.frame
      rw [hepilogue] at hlast
      cases hlast
    | cons instr instrs =>
      rw [hepilogue] at hsuffix
      cases hsuffix
      exact absurd rfl (hne instr)

theorem isRegular (h : target.Body items) : ∀ item ∈ items, item.isRegular = true := by
  induction h with
  | nil => exact forall_mem_nil _
  | instr hinstr _ ih =>
    exact forall_mem_cons.mpr ⟨isRegular_instr hinstr.goesOn, ih⟩
  | openNear _ ih | closeNear _ ih | enter _ ih | jump _ _ ih =>
    exact forall_mem_cons.mpr ⟨rfl, ih⟩
  | epilogue _ ih =>
    rw [epilogue_eq, map_append, forall_mem_append, forall_mem_append]
    refine ⟨⟨fun item hitem => ?_, forall_mem_singleton.mpr rfl⟩, ih⟩
    obtain ⟨instr, hinstr, rfl⟩ := mem_map.mp hitem
    exact isRegular_instr (Instr.isControl_of_isTotal (isTotal_of_mem_epilogue hinstr))

end Target.Body

/-! ## Phases of a run -/

/-- Where a run is and what is known about its state there. -/
inductive Phase (host : Host) (target : Target) (items : List Item) (cpu : Cpu) (k : Nat)
    (state : Cpu) : Prop
  | entering {i : Nat} {rest : List Item}
      (hdrop : items.drop k = (target.frame.prologue.drop i).map .instr ++ rest)
      (hstate : host.execute false ((target.frame.prologue.take i).map .instr) cpu = some state)
      (hrest : target.Body rest) : Phase host target items cpu k state
  | inside {mid : Cpu} (hsetUp : target.frame.SetUp cpu mid)
      (hagrees : Agrees target.convention target.frame mid state)
      (hbody : target.Body (items.drop k)) : Phase host target items cpu k state
  | leaving {mid left : Cpu} {i : Nat} {rest : List Item}
      (hsetUp : target.frame.SetUp cpu mid)
      (hagrees : Agrees target.convention target.frame mid left)
      (hdrop : items.drop k
        = (target.frame.epilogue.dropLast.drop i).map .instr ++ .instr .ret :: rest)
      (hstate : host.execute false ((target.frame.epilogue.dropLast.take i).map .instr) left
        = some state) : Phase host target items cpu k state

section Passes

variable {items rest : List Item} {k j i : Nat} {state start : Cpu}

/-- Control passes an instruction to the item behind it. -/
theorem of_passes_instr (hitem : items[k]? = some (.instr instr))
    (hpasses : Passes host items k state j next) :
    j = k + 1 ∧ host.exec state instr = some next := by
  cases hpasses with
  | instr hinstr hexec =>
    rw [hitem] at hinstr
    cases hinstr
    exact ⟨rfl, hexec⟩
  | enter h | close h | jump h | stay h | skip h | into h =>
    rw [hitem] at h
    cases h

/-- Control passes through a list of instructions one by one. -/
theorem of_passes_straight {instrs : List Instr} (hi : i < instrs.length)
    (hdrop : items.drop k = (instrs.drop i).map .instr ++ rest)
    (hstate : host.execute false ((instrs.take i).map .instr) start = some state)
    (hpasses : Passes host items k state j next) :
    items.drop j = (instrs.drop (i + 1)).map .instr ++ rest ∧
      host.execute false ((instrs.take (i + 1)).map .instr) start = some next := by
  rw [drop_eq_getElem_cons hi] at hdrop
  obtain ⟨rfl, hexec⟩ := of_passes_instr (getElem?_of_drop hdrop) hpasses
  refine ⟨drop_succ_of_drop hdrop, ?_⟩
  rw [← take_append_getElem hi, map_append, Host.execute_append _ hstate]
  change (host.exec state instrs[i]).bind _ = _
  rw [hexec]
  rfl

end Passes

namespace Phase

variable {items : List Item} {k j : Nat} {state : Cpu}

variable {i : Nat} {rest : List Item}

/-- Behind the prologue the frame is set up. -/
theorem setUp_of_entered (hsound : target.frame.Sound) (hi : ¬ i < target.frame.prologue.length)
    (hdrop : items.drop k = (target.frame.prologue.drop i).map .instr ++ rest)
    (hstate : host.execute false ((target.frame.prologue.take i).map .instr) cpu = some state)
    (hrest : target.Body rest) : target.frame.SetUp cpu state ∧ target.Body (items.drop k) := by
  obtain ⟨mid, hexecute, hsetUp⟩ := Frame.exists_setUp host hsound cpu
  rw [take_of_length_le (Nat.le_of_not_lt hi), hexecute] at hstate
  cases hstate
  rw [hdrop, drop_of_length_le (Nat.le_of_not_lt hi)]
  exact ⟨hsetUp, hrest⟩

section Steps

variable (hsound : target.frame.Sound)
  (hentries : ∀ j s, s ≠ Graph.entry → items[j]? = some (.enter s) → target.Body (items.drop j))
  (hpasses : Passes host items k state j next)
  (hcourt : ∀ instr, items[k]? = some (.instr instr) → host.exec state instr = some next →
    Courtesy target.convention
      (target.frame.Guards (target.frame.bodyPointer (cpu.gpr rsp))) instr state next)

include hpasses

theorem step_leaving {left : Cpu} (hsetUp : target.frame.SetUp cpu mid)
    (hagrees : Agrees target.convention target.frame mid left) (hdrop : items.drop k
      = (target.frame.epilogue.dropLast.drop i).map .instr ++ .instr .ret :: rest)
    (hstate : host.execute false ((target.frame.epilogue.dropLast.take i).map .instr) left
      = some state) : Phase host target items cpu j next := by
  by_cases hi : i < target.frame.epilogue.dropLast.length
  · obtain ⟨hdrop, hstate⟩ := of_passes_straight hi hdrop hstate hpasses
    exact .leaving hsetUp hagrees hdrop hstate
  · -- nothing passes the return
    rw [drop_of_length_le (Nat.le_of_not_lt hi)] at hdrop
    cases (of_passes_instr (getElem?_of_drop hdrop) hpasses).2

include hsound hentries hcourt

theorem step_inside (hsetUp : target.frame.SetUp cpu mid)
    (hagrees : Agrees target.convention target.frame mid state)
    (hbody : target.Body (items.drop k)) : Phase host target items cpu j next := by
  have hcons {item : Item} (hitem : items[k]? = some item) (hne : ∀ instr, item ≠ .instr instr) :=
    Target.Body.of_cons (drop_of_getElem? hitem ▸ hbody) hne
  cases hpasses with
  | enter hitem | close hitem | into hitem | stay hitem =>
    exact .inside hsetUp hagrees (hcons hitem fun _ => Item.noConfusion).1
  | jump hitem htaken hentry =>
    have hs := (hcons hitem fun _ => Item.noConfusion).2 _ _ rfl
    exact .inside hsetUp hagrees (hentries _ _ hs hentry)
  | skip hitem hholds hclosed =>
    obtain ⟨m, rfl⟩ := Nat.exists_eq_add_of_le hclosed.1.le
    have hclose := hclosed.2.1
    rw [← getElem?_drop] at hclose
    have hrest := hbody.drop hclose fun _ => Item.noConfusion
    rw [drop_drop] at hrest
    exact .inside hsetUp hagrees hrest
  | @instr instr _ hitem hexec =>
    generalize hsuffix : items.drop k = suffix at hbody
    have hcourteous := hcourt instr hitem hexec
    rw [hsetUp.bodyPointer_eq] at hcourteous
    rw [drop_of_getElem? hitem] at hsuffix
    cases hbody with
    | instr hresp hrest =>
      cases hsuffix
      have hnext := hagrees.exec hresp hsound.total hexec hcourteous
      exact .inside hsetUp hnext hrest
    | @epilogue rest =>
      rw [← drop_of_getElem? hitem, Target.epilogue_eq, map_append, append_assoc] at hsuffix
      exact step_leaving (.instr hitem hexec) hsetUp hagrees (i := 0) hsuffix rfl
    | _ => cases hsuffix

/-- What one step preserves: a run goes from phase to phase. -/
theorem step (hphase : Phase host target items cpu k state) :
    Phase host target items cpu j next := by
  cases hphase with
  | @entering i rest hdrop hstate hrest =>
    by_cases hi : i < target.frame.prologue.length
    · obtain ⟨hdrop, hstate⟩ := of_passes_straight hi hdrop hstate hpasses
      exact .entering hdrop hstate hrest
    · obtain ⟨hsetUp, hbody⟩ := setUp_of_entered hsound hi hdrop hstate hrest
      exact step_inside hsound hentries hpasses hcourt hsetUp (.refl ..) hbody
  | inside hsetUp hagrees hbody =>
    exact step_inside hsound hentries hpasses hcourt hsetUp hagrees hbody
  | leaving hsetUp hagrees hdrop hstate => exact step_leaving hpasses hsetUp hagrees hdrop hstate

end Steps

theorem ret_leaving {left : Cpu} (hdrop : items.drop k
      = (target.frame.epilogue.dropLast.drop i).map .instr ++ .instr .ret :: rest)
    (hstate : host.execute false ((target.frame.epilogue.dropLast.take i).map .instr) left
      = some state) (hret : items[k]? = some (.instr .ret)) :
    host.execute false (target.frame.epilogue.dropLast.map .instr) left = some state := by
  by_cases hi : i < target.frame.epilogue.dropLast.length
  · rw [drop_eq_getElem_cons hi] at hdrop
    have hitem := (getElem?_of_drop hdrop).symm.trans hret
    have htotal := Target.isTotal_of_mem_epilogue (getElem_mem hi)
    rw [Item.instr.inj (Option.some.inj hitem)] at htotal
    cases htotal
  · rwa [take_of_length_le (Nat.le_of_not_lt hi)] at hstate

theorem ret_inside (hagrees : Agrees target.convention target.frame mid state)
    (hbody : target.Body (items.drop k)) (hret : items[k]? = some (.instr .ret)) :
    ∃ left, Agrees target.convention target.frame mid left ∧
      host.execute false (target.frame.epilogue.dropLast.map .instr) left = some state := by
  generalize hsuffix : items.drop k = suffix at hbody
  rw [drop_of_getElem? hret] at hsuffix
  cases hbody with
  | instr hresp hrest =>
    cases hsuffix
    cases hresp.goesOn
  | @epilogue rest =>
    rw [← drop_of_getElem? hret, Target.epilogue_eq, map_append, append_assoc] at hsuffix
    exact ⟨state, hagrees, ret_leaving (i := 0) hsuffix rfl hret⟩
  | _ => cases hsuffix

/-- A return ends an epilogue that started in a state of the body. -/
theorem ret (hsound : target.frame.Sound) (hphase : Phase host target items cpu k state)
    (hret : items[k]? = some (.instr .ret)) : ∃ mid left, target.frame.SetUp cpu mid ∧
      Agrees target.convention target.frame mid left ∧
      host.execute false (target.frame.epilogue.dropLast.map .instr) left = some state := by
  cases hphase with
  | @entering i rest hdrop hstate hrest =>
    by_cases hi : i < target.frame.prologue.length
    · rw [drop_eq_getElem_cons hi] at hdrop
      have hitem := (getElem?_of_drop hdrop).symm.trans hret
      have hctrl := Target.isControl_of_mem_prologue (getElem_mem hi)
      rw [Item.instr.inj (Option.some.inj hitem)] at hctrl
      cases hctrl
    · obtain ⟨hsetUp, hbody⟩ := setUp_of_entered hsound hi hdrop hstate hrest
      obtain ⟨left, hleft⟩ := ret_inside (.refl ..) hbody hret
      exact ⟨state, left, hsetUp, hleft⟩
  | @inside mid hsetUp hagrees hbody =>
    obtain ⟨left, hleft⟩ := ret_inside hagrees hbody hret
    exact ⟨mid, left, hsetUp, hleft⟩
  | @leaving mid left i rest hsetUp hagrees hdrop hstate =>
    exact ⟨mid, left, hsetUp, hagrees, ret_leaving hdrop hstate hret⟩

end Phase

/-! ## Returning -/

/-- A function that was called in one state returns to its caller in another. -/
structure Preserved (conv : Convention) (cpu : Cpu) (address : BitVec 64) (last : Cpu) :
    Prop where
  address : address = cpu.memory.read (cpu.gpr rsp) 8
  stackPointer : last.gpr rsp = cpu.gpr rsp + 8
  gpr : ∀ reg, conv.calleeSaved.contains (nameOf reg) = true →
    last.gpr reg = cpu.gpr reg
  xmm : ∀ reg, conv.calleeSaved.contains (vectorNameOf reg) = true →
    last.xmm reg = cpu.xmm reg

theorem rsp_not_calleeSaved (conv : Convention) : conv.calleeSaved.contains .rsp = false := by
  cases conv <;> decide

theorem preserved_of_takenDown (hsound : target.frame.Sound) {left state : Cpu}
    (hsetUp : target.frame.SetUp cpu mid) (hagrees : Agrees target.convention target.frame mid left)
    (hstate : host.execute false (target.frame.epilogue.dropLast.map .instr) left = some state) :
    Preserved target.convention cpu state.pop.1 state.pop.2 := by
  obtain ⟨last, hlast, hsp, hgpr, hxmm, hmemory⟩ :=
    Frame.exists_takenDown host hsound hsetUp hagrees.stackPointer hagrees.memory
  rw [hstate] at hlast
  cases hlast
  constructor
  · change state.memory.read (state.gpr rsp) 8 = _
    rw [hsp]
    apply Memory.read_congr
    intro i hi
    -- the return address is guarded
    obtain ⟨-, htotal, -⟩ := hsound.bounds
    have hoff : target.frame.callArgs + target.frame.spill ≤ target.frame.reservedSize := by
      rw [Frame.reservedSize]
      omega
    rw [hmemory, ← hsetUp.above i (by omega)]
    apply hagrees.memory
    rw [hsetUp.stackPointer, BitVec.add_assoc, ← BitVec.ofNat_add]
    exact hsound.guards_offset _ (by omega) (by omega)
  · rw [Cpu.gpr_pop_rsp, hsp]
  · intro reg hsaved
    have hne : reg ≠ rsp := by
      rintro rfl
      rw [show nameOf rsp = .rsp from rfl, rsp_not_calleeSaved] at hsaved
      cases hsaved
    change (state.toHostState.set rsp _).gpr reg = _
    rw [HostState.gpr_set_of_ne hne, hgpr reg hne]
    split
    next => rfl
    next hunsaved =>
      rw [Frame.mem_pushed_iff, Bool.not_eq_true] at hunsaved
      rw [hagrees.gpr reg hsaved hunsaved, hsetUp.gpr reg hne]
  · intro reg hsaved
    change state.xmm reg = _
    rw [hxmm reg]
    split
    next => rfl
    next hunsaved =>
      rw [Frame.mem_vectors_iff, Bool.not_eq_true] at hunsaved
      rw [hagrees.xmm reg hsaved hunsaved, hsetUp.xmm]

/-! ## Generated code -/

variable {graph : Graph} {opts : Options} {alloc : Allocation}
  {args : List ValueType} {compiled : CompiledFunction}

theorem length_members_le_count (mask : Mask) : mask.members.length ≤ mask.count := by
  have hmembers : mask.members.map Fin.val = (List.range 16).filter mask.getLsbD := by
    rw [← map_coe_finRange_eq_range, filter_map]
    rfl
  rw [← length_map Fin.val, hmembers]
  exact ((range_sublist.mpr (by decide)).filter mask.getLsbD).length_le

theorem sound_of_generate (hgen : graph.generate opts alloc args = .ok compiled)
    (htotal : compiled.frame.totalSize < 2 ^ 31) : compiled.frame.Sound := by
  obtain ⟨hframe, -⟩ := of_generate hgen
  have hfits := of_compute hframe
  refine ⟨htotal, ?_, ?_, ?_⟩
  · rw [hfits.xmmSave, Frame.vectorBytes, Nat.mul_comm]
    exact Nat.mul_le_mul_right 16 (length_members_le_count _)
  · rw [Frame.pushed, length_map]
    exact length_members_le_count _
  · rw [Frame.mem_pushed_iff, hfits.saved, RegisterSet.contains_inter,
      show nameOf rsp = .rsp from rfl, rsp_not_calleeSaved]
    exact Bool.false_ne_true

theorem body_of_disciplined {block : Block} {segment : List Item}
    (hentry : Graph.entry ∉ block.successors) (h : target.Disciplined block segment) :
    ∃ body, segment = target.head block ++ body ∧ target.Body body := by
  obtain ⟨parts, after, rfl, hparts, hafter⟩ := h
  exact ⟨_, rfl, (Target.Body.of_parts hentry hparts).append (.jumps hentry hafter)⟩

/-- The items of a function: the mark of the entry, the prologue, and a body. -/
theorem exists_body {first : List Item} {others : List (List Item)}
    (hlayout : ∀ (b : Nat) segment, (first :: others)[b]? = some segment → ∃ block : Block,
      block.index = b ∧ Graph.entry ∉ block.successors ∧ target.Disciplined block segment) :
    ∃ body, (first :: others).flatten
        = .enter Graph.entry :: (target.frame.prologue.map .instr ++ body) ∧ target.Body body := by
  obtain ⟨block, hindex, hentry, hdisc⟩ := hlayout 0 first rfl
  obtain ⟨body, rfl, hbody⟩ := body_of_disciplined hentry hdisc
  have hothers : target.Body others.flatten := by
    apply Target.Body.flatten
    intro segment hseg
    obtain ⟨b, hb⟩ := getElem?_of_mem hseg
    obtain ⟨block, hindex, hentry, hdisc⟩ := hlayout (b + 1) segment hb
    obtain ⟨body, rfl, hbody⟩ := body_of_disciplined hentry hdisc
    rw [Target.head, hindex, if_neg (show b + 1 ≠ Graph.entry from Nat.succ_ne_zero b)]
    exact .enter hbody
  refine ⟨body ++ others.flatten, ?_, hbody.append hothers⟩
  rw [Target.head, hindex, if_pos (show 0 = Graph.entry from rfl), flatten_cons,
    cons_append, cons_append, append_assoc]
  rfl

section Function

variable {items body : List Item}
  (hitems : items = .enter Graph.entry :: (target.frame.prologue.map .instr ++ body))
  (hbody : target.Body body)

include hitems hbody

theorem isRegular_function : ∀ item ∈ items, item.isRegular = true := by
  rw [hitems, forall_mem_cons, forall_mem_append]
  refine ⟨rfl, fun item hitem => ?_, hbody.isRegular⟩
  obtain ⟨instr, hinstr, rfl⟩ := mem_map.mp hitem
  exact isRegular_instr (Target.isControl_of_mem_prologue hinstr)

/-- Only the entry is entered before the prologue. -/
theorem body_of_enter {j s : Nat} (hs : s ≠ Graph.entry) (hj : items[j]? = some (.enter s)) :
    target.Body (items.drop j) := by
  rw [hitems] at hj ⊢
  cases j with
  | zero =>
    cases hj
    exact absurd rfl hs
  | succ j =>
    rw [getElem?_cons_succ] at hj
    rw [drop_succ_cons]
    by_cases hlt : j < (target.frame.prologue.map Item.instr).length
    · rw [getElem?_append_left hlt] at hj
      obtain ⟨instr, -, heq⟩ := mem_map.mp (mem_of_getElem? hj)
      cases heq
    · rw [getElem?_append_right (Nat.le_of_not_lt hlt)] at hj
      rw [drop_append, drop_of_length_le (Nat.le_of_not_lt hlt), nil_append]
      exact hbody.drop hj fun _ => Item.noConfusion

/-- Every run that returns has preserved the state of the caller. -/
theorem preserved_of_reaches {avx : Bool} {code : List UInt8} (hsound : target.frame.Sound)
    (hcode : Assembled avx items code) {address : BitVec 64} {last : Cpu}
    (hcourteous : Courteous host target.convention code
      (target.frame.Guards (target.frame.bodyPointer (cpu.gpr rsp))) (.running 0 cpu))
    (hmeets : host.Reaches code (.running 0 cpu) (.returned address last)) :
    Preserved target.convention cpu address last := by
  have hregular := isRegular_function hitems hbody
  have hstart : startOf avx items 1 = 0 := by
    rw [startOf_succ avx (show items[0]? = some (.enter Graph.entry) by rw [hitems]; rfl)]
    rfl
  rw [← hstart] at hmeets hcourteous
  -- along the run the phase is known, and that the run has come this far
  have hkeep {k j : Nat} {state next : Cpu}
      (hholds : host.Reaches code (.running (startOf avx items 1) cpu)
        (.running (startOf avx items k) state) ∧ Phase host target items cpu k state)
      (hpasses : Passes host items k state j next) :
      host.Reaches code (.running (startOf avx items 1) cpu) (.running (startOf avx items j) next) ∧
        Phase host target items cpu j next := by
    refine ⟨hholds.1.trans (hcode.reaches_of_passes hpasses), ?_⟩
    apply hholds.2.step hsound (fun _ _ hs hj => body_of_enter hitems hbody hs hj) hpasses
    intro instr hinstr hexec
    obtain ⟨extended, rest, hread⟩ := hcode.readInstr_startOf hinstr
    exact hcourteous _ _ _ _ _ _ hholds.1 hread hexec
  have hphase : Phase host target items cpu 1 cpu := by
    have hdrop : items.drop 1 = (target.frame.prologue.drop 0).map .instr ++ body := by
      rw [hitems]
      rfl
    exact .entering hdrop rfl hbody
  have hrun := invariant_reaches hcode hregular hkeep ⟨.refl, hphase⟩ hmeets
  rcases hrun with ⟨_, _, hstatus, -⟩ | ⟨k, state, hret, ⟨-, hphase⟩, hstatus⟩
  · cases hstatus
  · cases hstatus
    obtain ⟨mid, left, hsetUp, hagrees, hstate⟩ := hphase.ret hsound hret
    exact preserved_of_takenDown hsound hsetUp hagrees hstate

end Function

end Lowering

end GraphJit
