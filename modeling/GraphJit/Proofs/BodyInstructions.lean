import GraphJit.Proofs.ControlFlow

/-! # Instructions between the prologue and an epilogue

What stands between the prologue and an epilogue leaves alone what a function has to
preserve. The registers it writes are the scratch and argument registers and those
that the allocation uses, of which the frame saves the ones to be preserved; the
stack pointer is not written; and what is stored relative to the stack pointer
lies among the outgoing arguments or in one spill slot. Every return ends with
the whole epilogue.
-/

namespace GraphJit.Lowering

open X64 Code List Allocation

/-- Instructions that leave alone what has to be preserved. -/
structure Target.Respects (target : Target) (instr : Instr) : Prop where
  goesOn : instr.isControl = false
  written : ∀ name ∈ instr.written, name ∈ scratchNames ∨
    name ∈ target.convention.gpArguments ++ target.convention.vecArguments ∨
    target.allocation.used.contains name = true
  saved : ∀ name ∈ instr.written, target.convention.calleeSaved.contains name = true →
    target.frame.saved.contains name = true
  stackPointer : HostRegister.rsp ∉ instr.written
  stored : ∀ place bytes, instr.stored? = some (place, bytes) → place.base = Gpr.rsp →
    ∃ off, place.displacement = BitVec.ofNat 32 off ∧
      (off + bytes ≤ target.frame.callArgs ∨
        ∃ slot, 8 * slot + 8 ≤ target.frame.spill ∧ target.frame.callArgs + 8 * slot ≤ off ∧
          off + bytes ≤ target.frame.callArgs + 8 * slot + 8)

/-! ## Registers -/

section Registers

variable {conv : Convention} {name : HostRegister}

theorem calleeSaved_scratch (hname : name ∈ scratchNames) :
    conv.calleeSaved.contains name = false := by
  have hall : ∀ name ∈ scratchNames, conv.calleeSaved.contains name = false := by
    cases conv <;> decide
  exact hall name hname

theorem calleeSaved_argument (hname : name ∈ conv.gpArguments ++ conv.vecArguments) :
    conv.calleeSaved.contains name = false := by
  have hall : ∀ name ∈ conv.gpArguments ++ conv.vecArguments,
      conv.calleeSaved.contains name = false := by
    cases conv <;> decide
  exact hall name hname

theorem rsp_not_argument (conv : Convention) :
    HostRegister.rsp ∉ conv.gpArguments ++ conv.vecArguments := by
  cases conv <;> decide

theorem rsp_not_allocatable (conv : Convention) (hasCalls : Bool) :
    (conv.allocatable hasCalls).contains .rsp = false := by
  cases conv <;> cases hasCalls <;> decide

end Registers

/-! ## Generated code -/

/-- A target whose frame and homes belong to a graph. -/
structure Target.Fitted (target : Target) (graph : Graph) : Prop where
  registers : ∀ {id reg}, target.allocation.location? id = some (.register reg) →
    target.allocation.used.contains reg = true ∧
      (target.convention.allocatable graph.hasCalls).contains reg = true
  slots : ∀ {id slot}, target.allocation.location? id = some (.spill slot) →
    spillSlotBytes ∣ slot ∧ slot + spillSlotBytes ≤ target.frame.spill
  saved : target.frame.saved = target.convention.calleeSaved.inter target.allocation.used
  arguments : ∀ op ∈ graph.operations, op.instruction = .call →
    16 * max (op.sources.length - 1) 4 ≤ target.frame.callArgs

variable {graph : Graph} {target : Target} {block : Block} {op : Operation} {instr : Instr}

/-- The largest argument count of calls bounds the others. -/
theorem length_le_maxCallArguments (hop : op ∈ graph.operations) (hcall : op.instruction = .call) :
    ∃ count, graph.maxCallArguments? = some count ∧ op.sources.length - 1 ≤ count := by
  have hmem : op.sources.length - 1 ∈
      (graph.operations.filter (·.instruction == .call)).map (·.sources.length - 1) := by
    apply mem_map_of_mem (mem_filter.mpr ⟨hop, ?_⟩)
    rw [hcall]
    rfl
  cases hmax : graph.maxCallArguments? with
  | none =>
    rw [max?_eq_none_iff.mp hmax] at hmem
    cases hmem
  | some count => exact ⟨count, rfl, (max?_eq_some_iff.mp hmax).2 _ hmem⟩

theorem fitted_of_generate {limit : Option Nat} {opts : Options} {alloc : Allocation}
    {args : List ValueType} {compiled : CompiledFunction}
    (hgreedy : greedy limit opts.convention graph = .ok alloc)
    (hgen : graph.generate opts alloc args = .ok compiled)
    (hcalls : ∀ count ∈ graph.maxCallArguments?, count < twoPow 32) :
    (targetOf opts alloc compiled.frame args).Fitted graph := by
  obtain ⟨hframe, -⟩ := of_generate hgen
  have hfits := of_compute hframe
  obtain ⟨hregs, hslots⟩ := drawn_of_greedy hgreedy
  have hhouse := housing_of_greedy hgreedy
  refine ⟨hregs, fun hhome => ⟨hslots hhome, ?_⟩, hfits.saved, fun op hop hcall => ?_⟩
  · exact (hhouse.inSlot hhome).trans_eq hfits.spill.symm
  · obtain ⟨count, hcount, hlength⟩ := length_le_maxCallArguments hop hcall
    have hargs := hfits.arguments
    rw [hcount, argumentSlots_some (hcalls count hcount), Frame.argumentBytes] at hargs
    change _ ≤ compiled.frame.callArgs
    omega

theorem Target.Fitted.respects (hfitted : target.Fitted graph) (hop : op ∈ graph.operations)
    (hperm : target.Permits op instr) : target.Respects instr where
  goesOn := hperm.goesOn
  written name hname := by
    cases hperm.written name hname with
    | scratch hscr => exact .inl hscr
    | argument harg => exact .inr (.inl harg)
    | home hhome => exact .inr (.inr (hfitted.registers hhome).1)
  saved name hname hsaved := by
    cases hperm.written name hname with
    | scratch hscr =>
      rw [calleeSaved_scratch hscr] at hsaved
      cases hsaved
    | argument harg =>
      rw [calleeSaved_argument harg] at hsaved
      cases hsaved
    | home hhome =>
      rw [hfitted.saved, RegisterSet.contains_inter, hsaved, (hfitted.registers hhome).1]
      rfl
  stackPointer hrsp := by
    cases hperm.written _ hrsp with
    | scratch hscr => exact absurd hscr (by decide)
    | argument harg => exact rsp_not_argument _ harg
    | home hhome =>
      have hallow := (hfitted.registers hhome).2
      rw [rsp_not_allocatable] at hallow
      cases hallow
  stored place bytes hstored hbase := by
    obtain ⟨hplace, hbytes⟩ := hperm.stored place bytes hstored
    cases hplace with
    | pointer hptr =>
      rw [hptr] at hbase
      exact absurd hbase (by decide)
    | @slot id slot _ hhome hoff =>
      obtain ⟨⟨index, rfl⟩, hinside⟩ := hfitted.slots hhome
      rw [spillSlotBytes] at hoff hinside
      obtain ⟨off, hword, hdisp⟩ := of_bind hoff
      have hword := (of_wordSize hword).1
      refine ⟨off, (Except.ok.inj hdisp).symm, .inr ⟨index, hinside, ?_, ?_⟩⟩
      · omega
      · omega
    | @argument off _ hcall harg hdisp =>
      have hoff := stack_le_of_places harg
      have harea := hfitted.arguments op hop hcall
      rw [length_map, length_drop] at hoff
      refine ⟨off, hdisp, .inl ?_⟩
      omega

/-! ## Parts of blocks -/

namespace Target

/-- The code of one operation: straight code, a return through the epilogue, or jumps. -/
inductive Part (target : Target) (block : Block) (op : Operation) : List Item → Prop
  | straight {items : List Item} (hop : op.instruction.isTerminator = false)
      (hstraight : Straight target.Respects items) : Part target block op items
  | returned {loads : List Instr} (hop : op.instruction = .ret)
      (hloads : ∀ instr ∈ loads, target.Respects instr) :
      Part target block op (loads.map .instr ++ target.frame.epilogue.map .instr)
  | branches {instrs : List Instr} {jumps : List Item} (hop : op.instruction.isTerminator = true)
      (hret : op.instruction ≠ .ret) (hinstrs : ∀ instr ∈ instrs, target.Respects instr)
      (hjumps : ∀ item ∈ jumps, ∃ cond, ∃ s ∈ block.successors, item = .jump cond s) :
      Part target block op (instrs.map .instr ++ jumps)

/-- The code of one block: a head, a part for each operation, and the way on. -/
def Disciplined (target : Target) (block : Block) (segment : List Item) : Prop :=
  ∃ parts after, segment = target.head block ++ (parts.flatten ++ after) ∧
    Forall₂ (target.Part block) block.operations parts ∧
    ∀ item ∈ after, ∃ cond, ∃ s ∈ block.successors, item = .jump cond s

theorem jumps_goTo {next : Nat} (hnext : block.next? = some next) :
    ∀ item ∈ goTo block next, ∃ cond, ∃ s ∈ block.successors, item = .jump cond s := by
  intro item hitem
  exact ⟨none, next, mem_of_getElem? hnext, mem_goTo hitem⟩

theorem part_of_operation {items : List Item}
    (hresp : ∀ instr, target.Permits op instr → target.Respects instr)
    (hitems : target.operation block op = .ok items) : target.Part block op items := by
  cases hend : op.instruction.isTerminator with
  | false =>
    apply Part.straight hend
    exact (target.straight_operation op block hend items hitems).mono hresp
  | true =>
    have hprepares : ∀ instr, target.Prepares op instr → target.Respects instr :=
      fun instr hinstr => hresp instr hinstr.2
    rw [operation] at hitems
    cases hkind : op.instruction with
    | ret =>
      rw [hkind] at hitems
      obtain ⟨loads, rfl, hloads⟩ := of_ret hitems
      exact .returned hkind fun instr hinstr => hprepares instr (hloads instr hinstr)
    | branch =>
      rw [hkind] at hitems
      obtain ⟨next, hnext, rfl⟩ := of_branch hitems
      exact @Part.branches target block op [] _ hend (by rw [hkind]; decide)
        (forall_mem_nil _) (jumps_goTo hnext)
    | branchIf cmp =>
      rw [hkind] at hitems
      obtain ⟨a, b, rest, taken, next, compare, -, htaken, hnext, -, hinstrs, rfl⟩ :=
        of_branchIf hitems
      apply Part.branches hend (by rw [hkind]; exact Instruction.noConfusion)
      · exact fun instr hinstr => hprepares instr (hinstrs instr hinstr)
      · rw [forall_mem_cons]
        exact ⟨⟨_, taken, mem_of_getElem? htaken, rfl⟩, jumps_goTo hnext⟩
    | _ =>
      rw [hkind] at hend
      cases hend

theorem parts_of_operations {loading : Bool} {ops : List Operation} {items : List Item}
    (hresp : ∀ op ∈ ops, ∀ instr, target.Permits op instr → target.Respects instr)
    (hitems : target.operations block loading ops = .ok items) :
    ∃ parts : List (List Item), items = parts.flatten ∧ Forall₂ (target.Part block) ops parts := by
  induction ops generalizing loading items with
  | nil =>
    cases hitems
    exact ⟨[], rfl, .nil⟩
  | cons op ops ih =>
    rw [forall_mem_cons] at hresp
    rw [operations] at hitems
    split at hitems
    next => cases hitems
    next =>
      obtain ⟨first, rest, hfirst, hrest, rfl⟩ := of_both hitems
      obtain ⟨parts, rfl, hparts⟩ := ih hresp.2 hrest
      exact ⟨first :: parts, rfl, .cons (part_of_operation hresp.1 hfirst) hparts⟩

theorem disciplined_of_block {segment : List Item}
    (hresp : ∀ op ∈ block.operations, ∀ instr, target.Permits op instr → target.Respects instr)
    (hblock : target.block block = .ok segment) : target.Disciplined block segment := by
  obtain ⟨lowered, after, hlower, hafter, rfl⟩ := of_block_parts hblock
  obtain ⟨parts, rfl, hparts⟩ := parts_of_operations hresp hlower
  refine ⟨parts, after, rfl, hparts, ?_⟩
  rw [fallThrough] at hafter
  split at hafter
  · cases hafter
    exact forall_mem_nil _
  next hnext =>
    cases hafter
    exact jumps_goTo hnext
  · cases hafter

theorem Fitted.disciplined (hfitted : target.Fitted graph) {b : Nat} {segment : List Item}
    (hblock : graph.blocks[b]? = some block) (hseg : target.block block = .ok segment) :
    target.Disciplined block segment := by
  apply disciplined_of_block _ hseg
  intro op hop instr
  have hmem := Array.mem_toList_iff.mpr (Array.mem_of_getElem? hblock)
  exact hfitted.respects (mem_flatMap.mpr ⟨block, hmem, hop⟩)

end Target

end GraphJit.Lowering
