import GraphJit.Proofs.BodyInstructions
import GraphJit.Proofs.HomeContents

/-! # Homes of their own

The greedy allocation gives out no register twice, and each slot lies behind those
given out before, so no two locals share any bits. The registers are none that
operations are computed in and none that arguments are passed in.
-/

namespace GraphJit

open X64

/-- What holds of the members in each bank holds of all members of a set. -/
theorem RegisterSet.forall_of_contains {set : RegisterSet} {holds : HostRegister → Prop}
    (hgp : ∀ id : Fin 32, set.gp.getLsbD id = true → holds (.gp id))
    (hvec : ∀ id : Fin 32, set.vec.getLsbD id = true → holds (.xmm id)) {name : HostRegister}
    (hname : set.contains name = true) : holds name := by
  have hid : name.id < 32 := BitVec.lt_of_getLsbD hname
  obtain ⟨bank, id⟩ := name
  rw [contains, mask] at hname
  split at hname
  next hbank =>
    cases hbank
    exact hgp ⟨id, hid⟩ hname
  next =>
    split at hname
    next hbank =>
      cases hbank
      exact hvec ⟨id, hid⟩ hname
    next => simp at hname

/-! ## Giving out homes -/

/-- No two locals share a home. -/
theorem Allocation.apart_of_greedy {limit : Option Nat} {conv : Convention} {graph : Graph}
    {alloc : Allocation} (hgreedy : greedy limit conv graph = .ok alloc) {id other : Nat}
    {home otherHome : Location} (hne : id ≠ other) (hhome : alloc.location? id = some home)
    (hother : alloc.location? other = some otherHome) : Lowering.Apart home otherHome := by
  obtain ⟨done, hhomes, rfl⟩ := homes_of_greedy hgreedy
  exact hhomes.apart hne hhome hother

/-! ## Registers of locals -/

namespace Lowering

/-- What is known of a register that a local may live in. -/
theorem of_allocatable {conv : Convention} {hasCalls : Bool} {name : HostRegister}
    (hname : (conv.allocatable hasCalls).contains name = true) :
    ((isGpr name = true ∧ gprOf name ∉ reserved) ∨ isXmm name = true) ∧ name ∉ scratchNames ∧
      name ∉ conv.gpArguments ++ conv.vecArguments := by
  apply RegisterSet.forall_of_contains _ _ hname
  · cases conv <;> cases hasCalls <;> decide +kernel
  · cases conv <;> cases hasCalls <;> decide +kernel

/-! ## Homes in code -/

variable {graph : Graph} {limit : Option Nat} {opts : Options} {alloc : Allocation}
  {args : List ValueType} {compiled : CompiledFunction}

/-- Locals of a graph with code have homes of their own. -/
theorem placed_of_generate (hgreedy : Allocation.greedy limit opts.convention graph = .ok alloc)
    (hgen : graph.generate opts alloc args = .ok compiled) :
    (targetOf opts alloc compiled.frame args).Placed := by
  obtain ⟨hframe, -⟩ := of_generate hgen
  have hfits := of_compute hframe
  obtain ⟨hregs, -⟩ := Allocation.drawn_of_greedy hgreedy
  have hhouse := Allocation.housing_of_greedy hgreedy
  constructor
  · exact fun hne hhome hother => Allocation.apart_of_greedy hgreedy hne hhome hother
  · exact fun hhome => (of_allocatable (hregs hhome).2).1
  · exact fun hhome => (hhouse.inSlot hhome).trans_eq hfits.spill.symm
  · have htotal := hfits.word
    change compiled.frame.callArgs + compiled.frame.spill ≤ _
    rw [Frame.totalSize, Frame.reservedSize] at htotal
    omega

end Lowering

end GraphJit
