import GraphJit.Proofs.PreservedState

/-! # Generated code and its caller

The main result puts together what is known about the code that the greedy allocation
leads to: its instructions leave alone what a function has to preserve, each return
undoes the prologue, and a run that returns does so to its caller, with the stack
pointer behind the return address and all preserved registers as they were at entry.
The last part asks that no block goes back to the entry. The prologue stands at the
head of the entry, so it would run once more, and the epilogue only undoes one of them.
-/

namespace GraphJit

open X64 Code

/-! ## Runs of a known length -/

/-- The status after a number of steps. -/
def X64.Host.run (host : Host) (code : List UInt8) : Nat → Status → Option Status
  | 0, status => some status
  | count + 1, status => (host.step code status).bind (host.run code count)

theorem X64.Host.reaches_of_run {host : Host} {code : List UInt8} {count : Nat}
    {status last : Status} (hrun : host.run code count status = some last) :
    host.Reaches code status last := by
  induction count generalizing status with
  | zero =>
    cases hrun
    exact .refl
  | succ count ih =>
    obtain ⟨next, hstep, hrun⟩ := Option.bind_eq_some_iff.mp hrun
    exact .head hstep (ih hrun)

/-- The stack pointer of a program that has returned. -/
def X64.Status.stackPointer? : Status → Option (BitVec 64)
  | .running _ _ => none
  | .returned _ cpu => some (cpu.gpr Gpr.rsp)

namespace Lowering

/-! ## Code that keeps the assumptions -/

section Assumptions

variable {avx : Bool} {items : List Item} {code : List UInt8} {host : Host} {conv : Convention}
  {guarded : BitVec 64 → Prop} {instr : Instr}

section

variable (hcode : Assembled avx items code) (hregular : ∀ item ∈ items, item.isRegular = true)
include hcode hregular

/-- Where an item starts, the code reads as a jump, a return, or an instruction among the items. -/
theorem control_or_mem_of_readInstr {k : Nat} {extended : Bool} {rest : List UInt8}
    (hread : readInstr.run (code.drop (startOf avx items k)) = some ((extended, instr), rest)) :
    instr.isControl = true ∨ .instr instr ∈ items := by
  -- behind the last item nothing is read
  have hinside : startOf avx items k < startOf avx items items.length := by
    by_contra hpast
    rw [List.drop_of_length_le (hcode.length.trans_le (Nat.le_of_not_lt hpast)), readInstr_nil]
      at hread
    cases hread
  have hk : k ≤ items.length := by
    by_contra hpast
    exact absurd (startOf_mono avx items (Nat.le_of_not_le hpast)) (Nat.not_le_of_lt hinside)
  rcases within_or_eq (Nat.zero_le k) hk le_rfl with ⟨j, item, -, -, hitem, hbytes, hsame⟩ | hsame
  · rw [hsame] at hread
    cases item with
    | enter | closeNear => exact absurd rfl hbytes
    | bytes | padding => cases hregular _ (List.mem_of_getElem? hitem)
    | instr other =>
      obtain ⟨_, _, hother⟩ := hcode.readInstr_startOf hitem
      rw [hother] at hread
      cases hread
      exact .inr (List.mem_of_getElem? hitem)
    | jump cond target =>
      obtain ⟨-, disp, -, hfar, -⟩ := hcode.far j cond target hitem
      have hlength := Assembled.length_emitted_jump avx cond target disp
      rw [Assembled.drop_startOf hitem hlength hfar, reads_farBytes disp cond] at hread
      cases hread
      cases cond <;> exact .inl rfl
    | openNear cond =>
      obtain ⟨-, disp, -, hnear, -⟩ := hcode.near j cond hitem
      have hlength : (Item.emitted avx (.openNear cond)).length
          = (nearBytes disp cond).length := rfl
      rw [Assembled.drop_startOf hitem hlength hnear, reads_nearBytes disp cond] at hread
      cases hread
      exact .inl rfl
  · exact absurd hsame hinside.ne

/-- Code is as expected if each of its instructions is. -/
theorem courteous_of_items (hinstrs : ∀ instr, .instr instr ∈ items → ∀ before after,
      host.exec before instr = some after → Courtesy conv guarded instr before after)
    (cpu : Cpu) : Courteous host conv code guarded (.running 0 cpu) := by
  intro pos before after extended instr rest hreaches hread hexec
  rcases status_of_reaches hcode hregular hreaches with ⟨k, _, hstatus⟩ | ⟨_, _, -, hstatus⟩
  · cases hstatus
    rcases control_or_mem_of_readInstr hcode hregular hread with hctrl | hmem
    · cases instr with
      | ret | jmp | jcc => cases hexec
      | _ => cases hctrl
    · exact hinstrs instr hmem before after hexec
  · cases hstatus

end

/-- Nothing is expected of instructions that only write where their code says. -/
theorem courtesy_of_not_foreign (hforeign : instr.isForeign = false) (before after : Cpu) :
    Courtesy conv guarded instr before after := by
  have hcall : instr.isCall ≠ true := by
    intro hcall
    rw [Instr.isForeign, hcall] at hforeign
    cases hforeign
  constructor
  · intro htrue
    rw [hforeign] at htrue
    cases htrue
  · exact fun h => absurd h hcall
  · exact fun h => absurd h hcall
  · exact fun h => absurd h hcall

end Assumptions

/-! ## Generated code -/

variable {graph : Graph} {limit : Option Nat} {opts : Options} {alloc : Allocation}
  {args : List ValueType} {compiled : CompiledFunction}

/-- What the code of a graph does for its caller. -/
structure Target.Preserving (target : Target) (graph : Graph) (avx : Bool) (code : List UInt8) :
    Prop where
  disciplined : ∃ layout : List (List Item), layout.length = graph.size ∧
    target.function graph = .ok layout.flatten ∧ Assembled avx layout.flatten code ∧
    ∀ (b : Nat) block, graph.blocks[b]? = some block → ∃ segment, layout[b]? = some segment ∧
      target.Disciplined block segment
  mirrored : target.frame.Mirrored
  returns : (∀ (b : Nat) block, graph.blocks[b]? = some block → block.index = b) →
    (∀ block ∈ graph.blocks, Graph.entry ∉ block.successors) →
    ∀ (host : Host) (cpu : Cpu) (addr : BitVec 64) (last : Cpu),
      Courteous host target.convention code
        (target.frame.Guards (target.frame.bodyPointer (cpu.gpr Gpr.rsp))) (.running 0 cpu) →
      host.Reaches code (.running 0 cpu) (.returned addr last) →
      Preserved target.convention cpu addr last

theorem mirrored_of_generate (hgenerate : graph.generate opts alloc args = .ok compiled) :
    compiled.frame.Mirrored := by
  obtain ⟨hframe, -⟩ := of_generate hgenerate
  have hsaved := (of_compute hframe).saved
  have hunsaved {name : HostRegister} (hname : name ∈ scratchNames) :
      compiled.frame.saved.contains name = false := by
    rw [hsaved, RegisterSet.contains_inter, calleeSaved_scratch hname, Bool.false_and]
  exact Frame.mirrored (hunsaved (by decide)) (hunsaved (by decide))

/-- Generated code preserves the state of its caller. -/
theorem generate_preserves_state
    (hgreedy : Allocation.greedy limit opts.convention graph = .ok alloc)
    (hgenerate : graph.generate opts alloc args = .ok compiled)
    (htotal : compiled.frame.totalSize < 2 ^ 31)
    (hcalls : ∀ count ∈ graph.maxCallArguments?, count < twoPow 32) :
    (targetOf opts alloc compiled.frame args).Preserving graph opts.avx
      compiled.code := by
  obtain ⟨-, items, hitems, hassemble⟩ := of_generate hgenerate
  obtain ⟨layout, rfl, hlength, hblocks⟩ := exists_layout hitems
  have hcode := assembled_of_assemble hassemble
  have hsound := sound_of_generate hgenerate htotal
  have hfitted := fitted_of_generate hgreedy hgenerate hcalls
  have hdisciplined : ∀ (b : Nat) block, graph.blocks[b]? = some block → ∃ segment,
      layout[b]? = some segment ∧
        (targetOf opts alloc compiled.frame args).Disciplined block segment := by
    intro b block hblock
    obtain ⟨segment, hsegment, hlowered⟩ := hblocks b block hblock
    exact ⟨segment, hsegment, hfitted.disciplined hblock hlowered⟩
  refine ⟨⟨layout, hlength, hitems, hcode, hdisciplined⟩, mirrored_of_generate hgenerate, ?_⟩
  intro hidx hentry host cpu address last hcourteous hreaches
  cases layout with
  | nil =>
    -- without blocks there is nothing that could return
    rcases status_of_reaches hcode (List.forall_mem_nil _) hreaches with
      ⟨_, _, hstatus⟩ | ⟨_, _, hret, -⟩
    · cases hstatus
    · cases hret
  | cons first others =>
    -- each segment belongs to the block at its position
    have hlayout : ∀ (b : Nat) segment, (first :: others)[b]? = some segment → ∃ block : Block,
        block.index = b ∧ Graph.entry ∉ block.successors ∧
          (targetOf opts alloc compiled.frame args).Disciplined block segment := by
      intro b segment hsegment
      have hb : b < graph.blocks.size := (List.getElem?_eq_some_iff.mp hsegment).1.trans_eq hlength
      have hblock := Array.getElem?_eq_getElem hb
      obtain ⟨found, hfound, hfoundDisciplined⟩ := hdisciplined b _ hblock
      rw [hsegment] at hfound
      cases hfound
      exact ⟨_, hidx b _ hblock, hentry _ (Array.mem_of_getElem? hblock), hfoundDisciplined⟩
    obtain ⟨body, heq, hbody⟩ := exists_body hlayout
    exact preserved_of_reaches heq hbody hsound hcode hcourteous hreaches

/-! ## Samples -/

/-- A host on which called functions return at once. -/
def idleHost : Host where
  floatBinary _ _ a _ := a
  floatFlags _ _ _ := ⟨false, false, false, false, false⟩
  intToFloat _ _ a := a.setWidth _
  floatToInt _ _ a := a.setWidth _
  floatToFloat _ a := a.setWidth _
  flagsAfter _ cpu := cpu.flags
  call _ cpu := some cpu

/-- A state with a stack below the given address. -/
def stackAt (pointer : BitVec 64) : Cpu where
  gpr reg := if reg = Gpr.rsp then pointer else 0
  memory _ := 0
  xmm _ := 0
  flags := ⟨false, false, false, false, false⟩

/-- Whether an item is neither raw data nor an instruction that stores through a pointer. -/
def isPlain : Item → Bool
  | .instr instr => (Item.instr instr).isRegular && (instr.isCall || !instr.isForeign)
  | item => item.isRegular

theorem isRegular_of_isPlain {item : Item} (hplain : isPlain item = true) :
    item.isRegular = true := by
  cases item with
  | instr instr => exact (Bool.and_eq_true_iff.mp hplain).1
  | _ => exact hplain

theorem courtesy_idleHost {conv : Convention} {guarded : BitVec 64 → Prop} {instr : Instr}
    {before after : Cpu} (hplain : isPlain (.instr instr) = true)
    (hexec : idleHost.exec before instr = some after) :
    Courtesy conv guarded instr before after := by
  cases hcall : instr.isCall with
  | true =>
    cases instr with
    | callReg reg =>
      cases hexec
      exact ⟨fun _ _ _ => rfl, fun _ => rfl, fun _ _ _ => rfl, fun _ _ _ => rfl⟩
    | _ => cases hcall
  | false =>
    have hlocal := (Bool.and_eq_true_iff.mp hplain).2
    rw [hcall, Bool.false_or, Bool.not_eq_true'] at hlocal
    exact courtesy_of_not_foreign hlocal before after

theorem courteous_idleHost (hgenerate : graph.generate opts alloc args = .ok compiled)
    (hplain : ((targetOf opts alloc compiled.frame args).function graph).toOption.all
      (·.all isPlain) = true) (conv : Convention) (guarded : BitVec 64 → Prop) (cpu : Cpu) :
    Courteous idleHost conv compiled.code guarded (.running 0 cpu) := by
  obtain ⟨-, items, hitems, hassemble⟩ := of_generate hgenerate
  rw [hitems] at hplain
  have hitem : ∀ item ∈ items, isPlain item = true := List.all_eq_true.mp hplain
  apply courteous_of_items (assembled_of_assemble hassemble)
  · exact fun item hmem => isRegular_of_isPlain (hitem item hmem)
  · exact fun instr hmem before after hexec => courtesy_idleHost (hitem _ hmem) hexec

/-- The code of a graph that returns after a number of steps, with the stack pointer there. -/
theorem exists_returned {host : Host} {count : Nat} {cpu : Cpu} {pointer : BitVec 64}
    (hreturns : (graph.generate opts alloc args).toOption.bind (fun compiled =>
      (host.run compiled.code count (.running 0 cpu)).bind Status.stackPointer?) = some pointer) :
    ∃ compiled addr last, graph.generate opts alloc args = .ok compiled ∧
      host.Reaches compiled.code (.running 0 cpu) (.returned addr last) ∧
      last.gpr Gpr.rsp = pointer := by
  obtain ⟨compiled, hcompiled, hreturns⟩ := Option.bind_eq_some_iff.mp hreturns
  obtain ⟨status, hrun, hpointer⟩ := Option.bind_eq_some_iff.mp hreturns
  cases hgenerate : graph.generate opts alloc args with
  | error fault =>
    rw [hgenerate] at hcompiled
    cases hcompiled
  | ok found =>
    rw [hgenerate] at hcompiled
    cases hcompiled
    cases status with
    | running pos cpu => cases hpointer
    | returned addr last =>
      exact ⟨compiled, addr, last, rfl, Host.reaches_of_run hrun, Option.some.inj hpointer⟩

/-- A loop around a call, with locals in a general purpose register, in a vector register and in
memory. -/
def callingSample : Graph where
  blocks := #[
    { index := 0
      operations := [.copy (.localVar 0 .i64) (.constant 2 .i64),
        .copy (.localVar 1 .f64) (.constant 0 .f64)]
      successors := [1] },
    { index := 1
      operations := [
        .compute .call (.localVar 2 .i64) [.constant 4096 .i64, .localVar 0 .i64, .localVar 1 .f64],
        .compute .sub (.localVar 0 .i64) [.localVar 0 .i64, .constant 1 .i64],
        .branchIf .ne (.localVar 0 .i64) (.constant 0 .i64)]
      successors := [2, 1], predecessors := [0, 1] },
    { index := 2, operations := [.ret (.localVar 2 .i64)]
      predecessors := [1] }]
  locals := ⟨#[some .i64, some .f64, some .i64]⟩

def callingHomes : Allocation where
  locations := #[some (.register .rbx), some (.register (.xmm 6)), some (.spill 0)]
  intUsed := 8
  vecUsed := 64
  spillSize := 8

def callingFrame : Frame where
  intSaved := 8
  vecSaved := 64
  xmmSave := 16
  spill := 8
  callArgs := 72

def callingOptions : Options where
  convention := .win64

theorem generate_preserves_state_callingSample :
    Allocation.greedy (some 1) callingOptions.convention callingSample = .ok callingHomes ∧
      ∃ compiled, callingSample.generate callingOptions callingHomes [] = .ok compiled ∧
        (targetOf callingOptions callingHomes compiled.frame []).Preserving callingSample
          false compiled.code ∧
        ∃ address last, idleHost.Reaches compiled.code (.running 0 (stackAt 4096))
            (.returned address last) ∧ Preserved .win64 (stackAt 4096) address last := by
  have hgreedy : Allocation.greedy (some 1) callingOptions.convention callingSample
      = .ok callingHomes := Allocation.greedy_eq_ok (by decide) (by cbv)
  have hframe : Frame.compute .win64 callingHomes.intUsed callingHomes.vecUsed
      callingHomes.spillSize callingSample.maxCallArguments? = .ok callingFrame := by decide
  have hidx : ∀ b < 3, ∀ block ∈ callingSample.blocks[b]?, block.index = b := by decide
  have hreturns : (callingSample.generate callingOptions callingHomes []).toOption.bind
      (fun compiled => (idleHost.run compiled.code 39 (.running 0 (stackAt 4096))).bind
        Status.stackPointer?) = some 4104 := by decide +kernel
  obtain ⟨compiled, address, last, hgenerate, hreaches, -⟩ := exists_returned hreturns
  have hcompiled : compiled.frame = callingFrame :=
    Except.ok.inj ((of_generate hgenerate).1.symm.trans hframe)
  have htotal : compiled.frame.totalSize < 2 ^ 31 := by
    rw [hcompiled]
    decide
  have hpreserving := generate_preserves_state hgreedy hgenerate htotal (by decide)
  refine ⟨hgreedy, compiled, hgenerate, hpreserving, address, last, hreaches, ?_⟩
  -- called functions return at once, and no instruction stores through a pointer
  apply hpreserving.returns _ (by decide) idleHost _ _ _ _ hreaches
  · intro b block hblock
    exact hidx b (Array.getElem?_eq_some_iff.mp hblock).1 block hblock
  · apply courteous_idleHost hgenerate
    rw [hcompiled]
    decide +kernel

/-- A loop back to the entry, which counts to two. -/
def reentrySample : Graph where
  blocks := #[
    { index := 0
      operations := [
        .compute .add (.localVar 0 .i64) [.localVar 0 .i64, .constant 1 .i64],
        .branchIf .ne (.localVar 0 .i64) (.constant 2 .i64)]
      successors := [1, 0], predecessors := [0] },
    { index := 1, operations := [.ret (.localVar 0 .i64)]
      predecessors := [0] }]
  locals := ⟨#[some .i64]⟩

/-- The second prologue is not undone: the function returns to what the first one has pushed. -/
theorem generate_reentrySample_returns_astray :
    Allocation.greedy none .sysv reentrySample = .ok loopHomes ∧
      ∃ compiled, reentrySample.generate {} loopHomes [] = .ok compiled ∧
        compiled.frame.totalSize < 2 ^ 31 ∧
        ∃ address last, Courteous idleHost .sysv compiled.code
            (compiled.frame.Guards (compiled.frame.bodyPointer 4096)) (.running 0 (stackAt 4096)) ∧
          idleHost.Reaches compiled.code (.running 0 (stackAt 4096)) (.returned address last) ∧
          last.gpr Gpr.rsp = 4096 ∧ ¬ Preserved .sysv (stackAt 4096) address last := by
  have hgreedy : Allocation.greedy none .sysv reentrySample = .ok loopHomes :=
    Allocation.greedy_eq_ok (by decide) (by cbv)
  have hframe : Frame.compute .sysv loopHomes.intUsed loopHomes.vecUsed loopHomes.spillSize
      reentrySample.maxCallArguments? = .ok { intSaved := 8 } := by decide
  have hreturns : (reentrySample.generate {} loopHomes []).toOption.bind
      (fun compiled => (idleHost.run compiled.code 21 (.running 0 (stackAt 4096))).bind
        Status.stackPointer?) = some 4096 := by decide +kernel
  obtain ⟨compiled, address, last, hgenerate, hreaches, hpointer⟩ := exists_returned hreturns
  have hcompiled : compiled.frame = { intSaved := 8 } :=
    Except.ok.inj ((of_generate hgenerate).1.symm.trans hframe)
  have htotal : compiled.frame.totalSize < 2 ^ 31 := by
    rw [hcompiled]
    decide
  refine ⟨hgreedy, compiled, hgenerate, htotal, address, last, ?_, hreaches, hpointer, ?_⟩
  · apply courteous_idleHost hgenerate
    rw [hcompiled]
    decide +kernel
  · -- a function that returns to its caller has popped the return address as well
    intro hpreserved
    have hexpected := hpreserved.stackPointer
    rw [hpointer] at hexpected
    exact absurd hexpected (by decide)

end Lowering

end GraphJit
