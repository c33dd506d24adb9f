import GraphJit.Proofs.CallerState
import GraphJit.Proofs.Construction
import GraphJit.Proofs.IncomingArguments
import GraphJit.Proofs.OutgoingArguments

/-! # Caller and callee agree on arguments

A call puts each argument where the convention wants it, and a function loads its
arguments from there. The main result joins both sides: whatever homes the greedy
allocation gives, a local that is loaded from an argument has the value that the
operand of the call had. Each side moves all its arguments as if at once, so nothing
is overwritten that is still to be read.
-/

namespace GraphJit

open X64 Code List

/-- The argument loads that a function starts with. -/
def Graph.argumentLoads (graph : Graph) : List Operation := match graph.blocks[entry]? with
  | some block => block.argumentLoads
  | none => []

theorem Graph.argumentLocals_eq (graph : Graph) : graph.argumentLocals
    = graph.argumentLoads.filterMap fun op => op.destination.bind Operand.localId? := by
  rw [argumentLocals, argumentLoads]
  cases graph.blocks[entry]? <;> rfl

namespace Lowering

/-! ## Generated functions -/

/-- A graph with the homes that the greedy allocation finds, and its code. -/
structure GeneratedFunction where
  graph : Graph
  options : Options
  types : List ValueType
  limit : Option Nat
  homes : Allocation
  compiled : CompiledFunction
  allocated : Allocation.greedy limit options.convention graph = .ok homes
  generated : graph.generate options homes types = .ok compiled

namespace GeneratedFunction

variable (function : GeneratedFunction)

def target : Target :=
  targetOf function.options function.homes function.compiled.frame function.types

/-- The items in front of an operation. -/
def itemsBefore (block : Block) (b i : Nat) : Emission :=
  Lowering.sequence ((function.graph.blocks.toList.take b).map function.target.block ++
    [.ok (function.target.head block),
      function.target.operations block (decide (block.index = Graph.entry))
        (block.operations.take i)])

/-- The position in the code where an operation of a block starts. -/
def positionOf? (b i : Nat) : Option Nat := function.graph.blocks[b]?.bind fun block =>
    (function.itemsBefore block b i).toOption.map fun items =>
      startOf function.options.avx items items.length

variable {function} {b : Nat} {block : Block}

/-- The code of a function, cut where a block starts and in front of an operation. -/
theorem exists_items {ops others : List Operation} (hblock : function.graph.blocks[b]? = some block)
    (hops : block.operations = ops ++ others) :
    ∃ items k first rest after, (b = Graph.entry → k = 0) ∧
      function.target.operations block (decide (block.index = Graph.entry)) ops = .ok first ∧
      function.target.operations block
        (decide (block.index = Graph.entry) && ops.all (·.instruction.isLoadArgument)) others
          = .ok rest ∧ items.drop k = function.target.head block ++ (first ++ (rest ++ after)) ∧
      Assembled function.options.avx items function.compiled.code ∧
      function.positionOf? b ops.length = some (startOf function.options.avx items
        (k + (function.target.head block).length + first.length)) := by
  obtain ⟨-, items, hitems, hasm⟩ := of_generate function.generated
  have hlist : function.graph.blocks.toList[b]? = some block := by
    rwa [Array.getElem?_toList]
  change function.target.function function.graph = .ok items at hitems
  -- the blocks in front, the block itself, and the blocks behind it
  rw [Target.function, ← take_append_drop b function.graph.blocks.toList, map_append,
    sequence_append, drop_eq_getElem?_toList_append, hlist] at hitems
  obtain ⟨blocks, following, hblocks, hfollowing, rfl⟩ := of_both hitems
  change Lowering.sequence (function.target.block block :: _) = _ at hfollowing
  obtain ⟨segment, last, hseg, -, rfl⟩ := of_sequence_cons hfollowing
  obtain ⟨lowered, exit, hlower, -, rfl⟩ := Target.of_block_parts hseg
  rw [hops] at hlower
  obtain ⟨first, rest, hfirst, hrest, rfl⟩ := Target.of_operations_append hlower
  have hbefore : function.itemsBefore block b ops.length
      = .ok (blocks ++ (function.target.head block ++ first)) := by
    rw [itemsBefore, sequence_append, hops, take_left, hfirst, hblocks]
    change Except.ok (blocks ++ (function.target.head block ++ (first ++ []))) = _
    rw [append_nil]
  have hstream : blocks ++ (function.target.head block ++ (first ++ rest ++ exit) ++ last)
      = blocks ++ (function.target.head block ++ first) ++ (rest ++ (exit ++ last)) := by
    simp only [append_assoc]
  refine ⟨_, blocks.length, first, rest, exit ++ last, ?_, hfirst, hrest, ?_,
    assembled_of_assemble hasm, ?_⟩
  · rintro rfl
    cases hblocks
    rfl
  · rw [drop_left]
    simp only [append_assoc]
  · have hlength : blocks.length + (function.target.head block).length + first.length
        = (blocks ++ (function.target.head block ++ first)).length := by
      rw [length_append, length_append, Nat.add_assoc]
    rw [positionOf?, hblock, hstream, hlength, startOf_append _ _ (Nat.le_refl _)]
    change Option.map _ (function.itemsBefore block b ops.length).toOption = _
    rw [hbefore]
    rfl

/-! ## The caller -/

/-- Operation `i` of a block calls a function. -/
def Calls (function : GeneratedFunction) (b i : Nat) (callee : Operand)
    (args : List Operand) : Prop :=
  ∃ block op, function.graph.blocks[b]? = some block ∧ block.operations[i]? = some op ∧
    op.instruction = .call ∧ op.sources = callee :: args

/-- The code of a call reaches the call instruction with the arguments in their places, and the
address of the callee in the accumulator. -/
theorem exists_reaches_call {i : Nat} {callee : Operand} {args : List Operand}
    (hcalls : ∀ count ∈ function.graph.maxCallArguments?, count < twoPow 32)
    (hcall : function.Calls b i callee args) (hcount : args.length < 2 ^ 26) :
    ∃ start stop, function.positionOf? b i = some start ∧
      (∃ extended rest, readInstr.run (function.compiled.code.drop stop)
        = some ((extended, .callReg Gpr.rax), rest)) ∧ ∀ (host : Host) (cpu : Cpu), ∃ called,
        host.Reaches function.compiled.code (.running start cpu) (.running stop called) ∧
        function.target.Passed args cpu called ∧
        (Width.ofType callee.type).cut (called.gpr Gpr.rax)
          = function.target.valueOf cpu callee := by
  obtain ⟨block, op, hblock, hop, hinsn, hsrcs⟩ := hcall
  have hops : block.operations
      = block.operations.take i ++ ([op] ++ block.operations.drop (i + 1)) := by
    conv_lhs => rw [← take_append_drop i block.operations, drop_eq_getElem?_toList_append, hop]
    rfl
  obtain ⟨stream, k, first, rest, after, -, -, hrest, hdrop, hcode, hpos⟩ :=
    exists_items hblock hops
  obtain ⟨items, others, hitems, -, rfl⟩ := Target.of_operations_append hrest
  rw [Target.operations, hinsn] at hitems
  obtain ⟨items, hlower, hitems⟩ := of_bind hitems
  cases hitems
  rw [Target.operation, hinsn] at hlower
  have hfitted := fitted_of_generate function.allocated function.generated hcalls
  have harea : 16 * max args.length 4 ≤ function.target.frame.callArgs := by
    have hmem := SSA.mem_operations hblock (mem_of_getElem? hop)
    have hargs := hfitted.arguments op hmem hinsn
    rwa [hsrcs, length_cons, Nat.add_sub_cancel] at hargs
  obtain ⟨front, back, rfl, hcalled⟩ := Target.exists_called
    (aside_of_generate function.allocated function.generated) hsrcs hcount harea hlower
  rw [length_take_of_le (lt_length hop).le] at hpos
  -- the moves of the arguments, and what follows from the call instruction on
  have hdrop := drop_add_of_drop (drop_add_of_drop hdrop)
  rw [append_nil, append_assoc, append_assoc] at hdrop
  refine ⟨_, _, hpos, hcode.readInstr_startOf (getElem?_of_drop (drop_add_of_drop hdrop)),
    fun host cpu => ?_⟩
  obtain ⟨called, hexec, hpassed, haddress⟩ := hcalled host cpu
  exact ⟨called, (reaches_of_execute hcode hdrop).1 hexec, hpassed, haddress⟩

/-! ## The callee -/

/-- A function that starts with loads of arguments, each of the type that the argument has, into
locals that differ. -/
structure LoadsArguments (function : GeneratedFunction) : Prop where
  entry : ∃ block, function.graph.blocks[Graph.entry]? = some block ∧ block.index = Graph.entry
  typed : ∀ op ∈ function.graph.argumentLoads, ∃ index id type, op.Loads index id type ∧
    function.types[index]? = some type
  distinct : function.graph.argumentLocals.Nodup

theorem receives (htotal : function.compiled.frame.totalSize < 2 ^ 31)
    (hcount : function.types.length < 2 ^ 26) : function.target.Receives where
  toAside := aside_of_generate function.allocated function.generated
  total := htotal
  offers _ hplace := Convention.offers_of_places hcount hplace

/-- A function that is called reaches the end of its loads, with the arguments in its locals. -/
theorem exists_reaches_loads (hloads : function.LoadsArguments)
    (htotal : function.compiled.frame.totalSize < 2 ^ 31)
    (hcount : function.types.length < 2 ^ 26) :
    ∃ last, function.positionOf? Graph.entry function.graph.argumentLoads.length = some last ∧
      ∀ (host : Host) (called : Cpu) (addr : BitVec 64), ∃ after,
        host.Reaches function.compiled.code (.running 0 (called.push addr)) (.running last after) ∧
        function.target.Received function.graph.argumentLoads called after := by
  obtain ⟨block, hblock, hindex⟩ := hloads.entry
  have hargumentLoads : function.graph.argumentLoads = block.argumentLoads := by
    rw [Graph.argumentLoads, hblock]
  have hops : block.operations = block.argumentLoads
      ++ block.operations.dropWhile (·.instruction.isLoadArgument) :=
    takeWhile_append_dropWhile.symm
  obtain ⟨items, k, first, rest, after, hk, hfirst, -, hdrop, hcode, hpos⟩ :=
    exists_items hblock hops
  obtain rfl := hk rfl
  rw [decide_eq_true hindex] at hfirst
  have hhead : function.target.head block
      = .enter block.index :: function.target.frame.prologue.map .instr := by
    rw [Target.head, if_pos hindex]
  rw [hhead, cons_append, ← append_assoc] at hdrop
  have hlast : 0 + (function.target.head block).length + first.length
      = 0 + 1 + (function.target.frame.prologue.map Item.instr ++ first).length := by
    rw [hhead, length_cons, length_append]
    omega
  rw [hargumentLoads]
  refine ⟨_, hpos, fun host called addr => ?_⟩
  have hleading : ∀ op ∈ block.argumentLoads, ∃ index id type, op.Loads index id type := by
    intro op hop
    obtain ⟨index, id, type, hop, -⟩ := hloads.typed op (hargumentLoads ▸ hop)
    exact ⟨index, id, type, hop⟩
  have hdist := hloads.distinct
  rw [Graph.argumentLocals_eq, hargumentLoads] at hdist
  obtain ⟨after, hexec, hreceived⟩ := (receives htotal hcount).exists_entered
    (sound_of_generate function.generated htotal)
    (Frame.length_pushed_of_compute (of_generate function.generated).1) hleading hdist hfirst
    host called addr
  refine ⟨after, ?_, hreceived⟩
  rw [hlast]
  exact (hcode.reaches_of_passes (.enter (getElem?_of_drop hdrop))).trans
    ((reaches_of_execute hcode (drop_succ_of_drop hdrop)).1 hexec)

end GeneratedFunction

/-! ## The call -/

/-- Caller and callee find an argument in the same place. -/
theorem getElem?_map_valueOf {caller callee : GeneratedFunction} {args : List Operand}
    {before called after : Cpu}
    (hconv : callee.options.convention = caller.options.convention)
    (htypes : args.map Operand.type = callee.types) (hloads : callee.LoadsArguments)
    (hpassed : caller.target.Passed args before called)
    (hreceived : callee.target.Received callee.graph.argumentLoads called after) {op : Operation}
    (hop : op ∈ callee.graph.argumentLoads) {index id : Nat} {type : ValueType}
    (hop' : op.Loads index id type) : (args.map (caller.target.valueOf before))[index]?
      = some (callee.target.valueOf after (.localVar id type)) := by
  obtain ⟨_, _, _, hop'', htype⟩ := hloads.typed op hop
  obtain ⟨rfl, rfl, rfl⟩ := hop'.inj hop''
  rw [← htypes, getElem?_map, Option.map_eq_some_iff] at htype
  obtain ⟨arg, harg, rfl⟩ := htype
  obtain ⟨place, hplace, hvalue⟩ := hreceived.locals op hop _ _ _ hop'
  have hpair : (arg, place) ∈ caller.target.argumentPlaces args := by
    have hplaces : callee.target.arguments
        = caller.target.convention.places (args.map Operand.type) := by
      rw [htypes]
      exact congrArg (·.places callee.types) hconv
    rw [hplaces] at hplace
    exact mem_of_getElem? (getElem?_zip_eq_some.mpr ⟨harg, hplace⟩)
  rw [getElem?_map, harg, hvalue, hpassed.stackPointer, hpassed.places arg place hpair]
  rfl

/-- Locals that are loaded from arguments have the values that the operands of the call had. The
call instruction itself pushes the address that it returns to and goes to the first byte of the
callee. The bounds are those of the code: displacements do not reach over a frame of `2 ^ 31` bytes,
and the room for arguments is counted in words of 32 bits. -/
theorem generate_passes_arguments (caller callee : GeneratedFunction)
    (hconv : callee.options.convention = caller.options.convention)
    (hcalls : ∀ count ∈ caller.graph.maxCallArguments?, count < twoPow 32)
    (htotal : callee.compiled.frame.totalSize < 2 ^ 31) (hcount : callee.types.length < 2 ^ 26)
    {b i : Nat} {function : Operand} {args : List Operand}
    (hcall : caller.Calls b i function args)
    (htypes : args.map Operand.type = callee.types) (hloads : callee.LoadsArguments) :
    ∃ start stop last, caller.positionOf? b i = some start ∧
      callee.positionOf? Graph.entry callee.graph.argumentLoads.length = some last ∧
      (∃ extended rest, readInstr.run (caller.compiled.code.drop stop)
        = some ((extended, .callReg Gpr.rax), rest)) ∧
      ∀ (host : Host) (cpu : Cpu), ∃ called,
        host.Reaches caller.compiled.code (.running start cpu) (.running stop called) ∧
        (Width.ofType function.type).cut (called.gpr Gpr.rax)
          = caller.target.valueOf cpu function ∧
        caller.target.Passed args cpu called ∧
        ∀ address, ∃ after, host.Reaches callee.compiled.code (.running 0 (called.push address))
            (.running last after) ∧
          callee.target.Received callee.graph.argumentLoads called after ∧
          ∀ op ∈ callee.graph.argumentLoads, ∀ index id type, op.Loads index id type →
            (args.map (caller.target.valueOf cpu))[index]?
              = some (callee.target.valueOf after (.localVar id type)) := by
  have hlength : args.length < 2 ^ 26 := by
    rwa [← List.length_map Operand.type, htypes]
  obtain ⟨start, stop, hstart, hread, hcalled⟩ :=
    GeneratedFunction.exists_reaches_call hcalls hcall hlength
  obtain ⟨last, hlast, hentered⟩ := GeneratedFunction.exists_reaches_loads hloads htotal hcount
  refine ⟨start, stop, last, hstart, hlast, hread, fun host cpu => ?_⟩
  obtain ⟨called, hreaches, hpassed, haddress⟩ := hcalled host cpu
  refine ⟨called, hreaches, haddress, hpassed, fun address => ?_⟩
  obtain ⟨after, hafter, hreceived⟩ := hentered host called address
  exact ⟨after, hafter, hreceived, fun op hop index id type hop' =>
    getElem?_map_valueOf hconv htypes hloads hpassed hreceived hop hop'⟩

/-! ## A sample -/

theorem exists_generated {graph : Graph} {opts : Options} {homes : Allocation}
    {types : List ValueType} {frame : Frame}
    (hframe : (graph.generate opts homes types).toOption.map (·.frame) = some frame) :
    ∃ compiled, graph.generate opts homes types = .ok compiled ∧ compiled.frame = frame := by
  cases hgen : graph.generate opts homes types with
  | error fault =>
    rw [hgen] at hframe
    cases hframe
  | ok compiled =>
    rw [hgen] at hframe
    exact ⟨compiled, rfl, Option.some.inj hframe⟩

/-- Arguments of a call: a constant, and locals in registers and in memory. -/
def passedOperands : List Operand :=
  [.constant 7 .i32, .localVar 1 .f64, .localVar 0 .i64, .localVar 2 .f32, .localVar 0 .i64,
    .localVar 2 .f32]

def passingSample : Graph where
  blocks := #[
    { index := 0
      operations := [.copy (.localVar 0 .i64) (.constant 5 .i64),
        .copy (.localVar 1 .f64) (.constant 0x3ff0000000000000 .f64),
        .copy (.localVar 2 .f32) (.constant 0x3f800000 .f32),
        .compute .call (.localVar 3 .i64) (.constant 4096 .i64 :: passedOperands),
        .ret (.localVar 3 .i64)] }]
  locals := ⟨#[some .i64, some .f64, some .f32, some .i64]⟩

def passingHomes : Allocation where
  locations := #[some (.register .rbx), some (.spill 0), some (.register (.xmm 6)), some (.spill 8)]
  intUsed := 8
  vecUsed := 64
  spillSize := 16

/-- Indices of arguments, with the locals they are loaded into. -/
def receivedLocals : List (Nat × Nat × ValueType) :=
  [(5, 0, .f32), (4, 1, .i64), (3, 2, .f32), (2, 3, .i64), (1, 4, .f64), (0, 5, .i32)]

def loadOf (load : Nat × Nat × ValueType) : Operation where
  instruction := .loadArgument load.1
  destination := some (.localVar load.2.1 load.2.2)

def receivingSample : Graph where
  blocks := #[
    { index := 0
      operations := receivedLocals.map loadOf ++
        [.compute .add (.localVar 3 .i64) [.localVar 3 .i64, .localVar 1 .i64],
          .ret (.localVar 3 .i64)] }]
  locals := ⟨#[some .f32, some .i64, some .f32, some .i64, some .f64, some .i32]⟩

def receivingHomes : Allocation where
  locations := #[some (.register (.xmm 4)), some (.spill 0), some (.spill 8),
    some (.register .rbx), some (.spill 16), some (.spill 24)]
  intUsed := 8
  vecUsed := 16
  spillSize := 32

/-- Four arguments come in registers and two on the stack. -/
theorem generate_passes_arguments_sample : ∃ caller callee : GeneratedFunction,
      (caller.graph = passingSample ∧ caller.homes = passingHomes) ∧
      (callee.graph = receivingSample ∧ callee.homes = receivingHomes) ∧
      callee.options.convention = caller.options.convention ∧
      (∀ count ∈ caller.graph.maxCallArguments?, count < twoPow 32) ∧
      callee.compiled.frame.totalSize < 2 ^ 31 ∧ callee.types.length < 2 ^ 26 ∧
      caller.Calls 0 3 (.constant 4096 .i64) passedOperands ∧
      passedOperands.map Operand.type = callee.types ∧ callee.LoadsArguments ∧
      ∃ start stop last, caller.positionOf? 0 3 = some start ∧
        callee.positionOf? Graph.entry 6 = some last ∧
        ∀ (host : Host) (cpu : Cpu) (address : BitVec 64), ∃ called after,
          host.Reaches caller.compiled.code (.running start cpu) (.running stop called) ∧
          host.Reaches callee.compiled.code (.running 0 (called.push address))
            (.running last after) ∧
          ∀ load ∈ receivedLocals, (passedOperands.map (caller.target.valueOf cpu))[load.1]?
            = some (callee.target.valueOf after (.localVar load.2.1 load.2.2)) := by
  have hpassing : Allocation.greedy (some 1) callingOptions.convention passingSample
      = .ok passingHomes := Allocation.greedy_eq_ok (by decide) (by cbv)
  have hreceiving : Allocation.greedy (some 1) callingOptions.convention receivingSample
      = .ok receivingHomes := Allocation.greedy_eq_ok (by decide) (by cbv)
  obtain ⟨passing, hpassing', -⟩ := exists_generated (show
    (passingSample.generate callingOptions passingHomes []).toOption.map (·.frame)
      = some { intSaved := 8, vecSaved := 64, xmmSave := 16, spill := 16, callArgs := 96 }
    by decide +kernel)
  obtain ⟨receiving, hreceiving', hframe⟩ := exists_generated (show
    (receivingSample.generate callingOptions receivingHomes
      (passedOperands.map Operand.type)).toOption.map (·.frame)
      = some { intSaved := 8, spill := 32 }
    by decide +kernel)
  let caller : GeneratedFunction := ⟨_, _, _, _, _, _, hpassing, hpassing'⟩
  let callee : GeneratedFunction := ⟨_, _, _, _, _, _, hreceiving, hreceiving'⟩
  have hcalls : ∀ count ∈ caller.graph.maxCallArguments?, count < twoPow 32 :=
    show ∀ count ∈ passingSample.maxCallArguments?, count < twoPow 32 by decide
  have htotal : callee.compiled.frame.totalSize < 2 ^ 31 := by
    rw [show callee.compiled.frame = _ from hframe]
    decide
  have hcount : callee.types.length < 2 ^ 26 :=
    show (passedOperands.map Operand.type).length < 2 ^ 26 by decide
  have hcall : caller.Calls 0 3 (.constant 4096 .i64) passedOperands := ⟨_, _, rfl, rfl, rfl, rfl⟩
  have htypes : ∀ load ∈ receivedLocals,
      (passedOperands.map Operand.type)[load.1]? = some load.2.2 := by decide
  have hloads : callee.LoadsArguments := by
    refine ⟨⟨_, rfl, rfl⟩, fun op hop => ?_, show receivingSample.argumentLocals.Nodup by decide⟩
    obtain ⟨load, hload, rfl⟩ := List.mem_map.mp (show op ∈ receivedLocals.map loadOf from hop)
    exact ⟨load.1, load.2.1, load.2.2, ⟨rfl, rfl⟩, htypes load hload⟩
  obtain ⟨start, stop, last, hstart, hlast, -, hcalled⟩ :=
    generate_passes_arguments caller callee rfl hcalls htotal hcount hcall rfl hloads
  refine ⟨caller, callee, ⟨rfl, rfl⟩, ⟨rfl, rfl⟩, rfl, hcalls, htotal, hcount, hcall, rfl, hloads,
    start, stop, last, hstart, hlast, fun host cpu address => ?_⟩
  obtain ⟨called, hreaches, -, -, hentered⟩ := hcalled host cpu
  obtain ⟨after, hafter, -, hvalues⟩ := hentered address
  refine ⟨called, after, hreaches, hafter, fun load hload => ?_⟩
  exact hvalues (loadOf load) (List.mem_map_of_mem hload) _ _ _ ⟨rfl, rfl⟩

end Lowering

end GraphJit
