import GraphJit.Lowering.Control

/-! # Lowering a function

A function without phis, whose locals have homes, is lowered block by block.
The entry block starts with the prologue, and every return ends with the
epilogue.
-/

namespace GraphJit

open X64 Code

/-- What a compiler can be told. -/
structure Options where
  /-- Whether to build static single assignment form. -/
  ssa : Bool := true
  /-- Whether float comparisons may ignore unordered operands. -/
  fastFloat : Bool := false
  /-- Whether to use the extended vector instruction set. -/
  avx : Bool := false
  convention : Convention := .sysv
  /-- Shorter code is not worth keeping. -/
  minSavedLength : Nat := 384
deriving DecidableEq, Repr

namespace Lowering

/-- Lower one operation of a block. -/
def Target.operation (target : Target) (block : Block) (op : Operation) : Emission :=
  match op.instruction with
  | .add | .sub | .mul | .and | .or | .xor => target.binary op
  | .div => target.divide op true
  | .divu => target.divide op false
  | .shl | .sar | .shr => target.shift op
  | .not => target.complement op
  | .neg => target.negate op
  | .copy => target.copy op
  | .compare comparison => target.compare op comparison
  | .select => target.select op
  | .zeroExtend32 => target.extend op false
  | .signExtend32 => target.extend op true
  | .toFloat => target.convertToFloat op
  | .toInteger => target.convertToInteger op
  | .load => target.load op
  | .store => target.store op
  | .loadArgument index => target.loadArgument op index
  | .call => target.call op
  | .ret => target.ret op
  | .branch => branch block
  | .branchIf comparison => target.branchIf block op comparison
  | .phi => unsupported (.phiInCode block.index)

/-- Lower operations in order. Arguments can be loaded only as long as nothing else has
been emitted, because their registers are not preserved. -/
def Target.operations (target : Target) (block : Block) : Bool → List Operation → Emission
  | _, [] => .ok []
  | loading, op :: ops => do
      let loading := loading && op.instruction.isLoadArgument
      if op.instruction.isLoadArgument && !loading then
        unsupported (.lateArgumentLoad block.index op)
      else
        let items ← target.operation block op
        return items ++ (← target.operations block loading ops)

/-- What follows the operations of a block without a terminator. -/
def fallThrough (block : Block) : Emission :=
  match block.terminator?, block.next? with
  | some _, _ => .ok []
  | none, some next => .ok (goTo block next)
  | none, none => unsupported (.openEnded block.index)

def Target.block (target : Target) (block : Block) : Emission :=
  let isEntry := block.index = Graph.entry
  sequence
    [.ok [.enter block.index],
      .ok (if isEntry then target.frame.prologue.map .instr else []),
      target.operations block isEntry block.operations,
      fallThrough block]

/-- The items of a whole function. -/
def Target.function (target : Target) (graph : Graph) : Emission :=
  sequence (graph.blocks.toList.map target.block)

end Lowering

/-- Machine code with the frame that it sets up. -/
structure CompiledFunction where
  code : List UInt8
  frame : Frame
deriving DecidableEq, Repr

/-- Lower an allocated graph to machine code. -/
def Graph.generate (graph : Graph) (options : Options) (allocation : Allocation)
    (arguments : List ValueType) : Outcome CompiledFunction := do
  let frame ← Frame.compute options.convention allocation.intUsed allocation.vecUsed
    allocation.spillSize graph.maxCallArguments?
  let target : Lowering.Target := {
    convention := options.convention
    fastFloat := options.fastFloat
    allocation
    frame
    arguments := options.convention.places arguments }
  let items ← target.function graph
  let buffer ← (Buffer.new options.avx graph.size).emit items
  return { code := ← buffer.finish, frame }

end GraphJit
