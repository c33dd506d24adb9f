import GraphJit.Proofs.AllocatedHomes
import GraphJit.Proofs.LoweredInstructions
import Mathlib.Algebra.Order.BigOperators.Group.List
import Mathlib.Algebra.Order.Monoid.Canonical.Defs
import Mathlib.Algebra.Order.Group.Nat

/-! # Generated code

Code is generated for a target, which is made of the allocation and its frame. With
bounded numbers of locals, call arguments and arguments the frame exists and every
offset into it is within range; then code generation gives code or an error, and
never stops without a result.
-/

namespace GraphJit

open X64 Code Lowering List

/-! ## The target of an allocation -/

/-- The target that code is generated for. -/
def targetOf (opts : Options) (alloc : Allocation) (frame : Frame)
    (args : List ValueType) : Target where
  convention := opts.convention
  fastFloat := opts.fastFloat
  allocation := alloc
  frame := frame
  arguments := opts.convention.places args

/-- Finish the code of some items. -/
def assemble (avx : Bool) (blockCount : Nat) (items : List Item) : Outcome (List UInt8) := do
  let stream ← (Stream.new avx blockCount).emit items
  stream.finish

variable {graph : Graph} {opts : Options} {alloc : Allocation} {frame : Frame}
  {args : List ValueType}

theorem generate_eq (hframe : Frame.compute opts.convention alloc.intUsed alloc.vecUsed
      alloc.spillSize graph.maxCallArguments? = .ok frame) : graph.generate opts alloc args
      = ((targetOf opts alloc frame args).function graph >>= fun items =>
          assemble opts.avx graph.size items >>= fun code => .ok { code, frame }) := by
  rw [Graph.generate, hframe]
  change ((targetOf opts alloc frame args).function graph >>= fun items => _) = _
  refine congrArg _ (funext fun items => ?_)
  rw [assemble, ← Buffer.emit_new]
  cases (Buffer.new opts.avx graph.size).emit items with
  | error cause => rfl
  | ok buffer =>
    change (buffer.flush.finish >>= fun code => _) = (buffer.flush.finish >>= fun code => _)
    rfl

/-- The largest call of a graph, and the locals and arguments, are bounded. -/
structure Bounded (graph : Graph) (args : List ValueType) : Prop where
  locals : graph.locals.count ≤ mostCounted
  calls : ∀ count ∈ graph.maxCallArguments?, count < mostCounted
  arguments : args.length ≤ mostCounted

section

variable (hbnd : Bounded graph args) (hhouse : Allocation.Housing graph alloc)
include hbnd hhouse

theorem exists_frame (conv : Convention) : ∃ frame, Frame.compute conv alloc.intUsed alloc.vecUsed
        alloc.spillSize graph.maxCallArguments? = .ok frame ∧
      frame.callArgs < twoPow 28 ∧ frame.totalSize < twoPow 29 := by
  refine exists_compute conv _ _ (hhouse.spillSize.trans ?_) hbnd.calls
  exact Nat.mul_le_mul_left _ hbnd.locals

/-- All offsets that code for an allocated graph uses are within range. -/
theorem sized_targetOf (opts : Options) (hcallArgs : frame.callArgs < twoPow 28)
    (htotal : frame.totalSize < twoPow 29) : (targetOf opts alloc frame args).Sized := by
  constructor
  · intro id slot hspill
    refine exists_spillOffset hcallArgs ?_
    have hslot := hhouse.inSlot hspill
    have hsize := hhouse.spillSize.trans (Nat.mul_le_mul_left _ hbnd.locals)
    rw [Allocation.spillSlotBytes] at hslot hsize
    omega
  · intro off hplace
    have hoff := stack_le_of_places hplace
    have hargs := hbnd.arguments
    exact exists_incomingOffset htotal (by omega)

end

/-! ## Weights -/

theorem weight_le_of_mem {op : Operation} (hop : op ∈ graph.operations) :
    op.weight ≤ graph.weight := by
  obtain ⟨block, hblock, hop⟩ := mem_flatMap.mp hop
  calc op.weight ≤ (block.operations.map Operation.weight).sum :=
        le_sum_of_mem (mem_map_of_mem hop)
    _ ≤ block.weight := Nat.le_succ _
    _ ≤ graph.weight := le_sum_of_mem (mem_map_of_mem hblock)

variable {count : Nat} {items : List Item} {avx : Bool}

theorem lt_weight_of_maxCallArguments? (hcount : count ∈ graph.maxCallArguments?) :
    count < graph.weight := by
  obtain ⟨op, hop, rfl⟩ := mem_map.mp (max?_mem hcount)
  have hweight := weight_le_of_mem (mem_filter.mp hop).1
  rw [Operation.weight] at hweight
  omega

/-! ## No faults -/

theorem of_emit_eq_ok {stream : Stream}
    (hstream : ((Stream.new avx count).emit items : Outcome Stream) = .ok stream) :
    (Stream.new avx count).emit items = .ok stream := by
  cases hresult : (Stream.new avx count).emit items with
  | error cause =>
    rw [hresult] at hstream
    cases hstream
  | ok found =>
    rw [hresult] at hstream
    cases hstream
    rfl

theorem faultless_assemble (hmatch : Matching items items)
    (hlength : 15 * items.length < twoPow 63) : Faultless (assemble avx count items) := by
  refine (faultless_liftM_error _).bind fun stream hstream => ?_
  have hemit := of_emit_eq_ok hstream
  have hlaid := laid_of_emit hemit
  refine faultless_finish hlaid (ordered_of_emit hemit) (Nat.lt_of_le_of_lt ?_ hlength)
  have hcode := hmatch.length_code_le avx
  rwa [← hlaid.code, Array.length_toList] at hcode

theorem exists_assemble {others : List Item} {code : List UInt8} (hmatch : Matching items others)
    (hshort : 15 * others.length < twoPow 31) (hasm : assemble avx count items = .ok code) :
    ∃ finished, assemble avx count others = .ok finished := by
  obtain ⟨stream, hstream, hfinish⟩ := of_bind hasm
  obtain ⟨other, finished, hemit, hfin⟩ :=
    exists_finished hmatch hshort (of_emit_eq_ok hstream) hfinish
  refine ⟨finished, ?_⟩
  rw [assemble, hemit]
  exact hfin

/-- The items of a function are as many as its weight allows, and match themselves. -/
theorem of_function {target : Target} (hfn : target.function graph = .ok items) :
    Matching items items ∧ items.length ≤ 80 * graph.weight := by
  have hpaired := (similar_self target graph).paired (.refl target)
  rw [hfn] at hpaired
  cases hpaired with
  | both hmatch hlength _ _ => exact ⟨hmatch, hlength⟩

/-- Code generation for an allocated graph of bounded size ends with code or with an error. -/
theorem faultless_generate {limit : Option Nat} (hbnd : Bounded graph args)
    (hweight : graph.weight < twoPow 48)
    (hgreedy : Allocation.greedy limit opts.convention graph = .ok alloc) :
    Faultless (graph.generate opts alloc args) := by
  have hhouse := Allocation.housing_of_greedy hgreedy
  obtain ⟨frame, hframe, hcallArgs, htotal⟩ := exists_frame hbnd hhouse opts.convention
  rw [generate_eq hframe]
  have hsized := sized_targetOf hbnd hhouse opts hcallArgs htotal
  refine ((similar_self _ graph).faultless hsized).bind fun items hitems => ?_
  obtain ⟨hmatch, hlength⟩ := of_function hitems
  have hsmall : 15 * items.length < twoPow 63 := by
    have hlow : twoPow 48 = 281474976710656 := rfl
    have hhigh : twoPow 63 = 9223372036854775808 := rfl
    omega
  exact (faultless_assemble hmatch hsmall).bind fun code _ => faultless_ok _

end GraphJit
