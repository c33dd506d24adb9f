import GraphJit.Proofs.PhiRemoval
import Mathlib.Algebra.BigOperators.Group.Finset.Piecewise
import Mathlib.Algebra.GroupWithZero.Nat

/-! # Removing all phis

Splitting edges and turning single phis into copies are composed along the loops
of the pass. What is carried along: the graph can still be treated, its runs match
those of the graph the pass began with, the blocks already passed have no phi, and
the blocks put on edges hold copies and a branch.
-/

namespace GraphJit.SSA

open Machine List

/-! ## Operations of a lowered block -/

variable {block : Block} {q temp : Nat} {copies : List Operation}

theorem withCopies_dropLast (hcopies : ∀ op ∈ copies, op.instruction.isTerminator = false)
    (hblock : ∀ op ∈ block.operations.dropLast, op.instruction.isTerminator = false) :
    ∀ op ∈ (withCopies copies block).operations.dropLast, op.instruction.isTerminator = false := by
  intro op hop
  rcases insertionPoint_cases block with ⟨body, last, hops, hlast, -, -⟩ | ⟨hterm, -⟩
  · rw [withCopies_of_terminator hops hlast, dropLast_concat] at hop
    rw [hops, dropLast_concat] at hblock
    exact (mem_append.mp hop).elim (hblock op) (hcopies op)
  · -- without a terminator no operation ends the block, not even the last
    have hall : ∀ op ∈ block.operations, op.instruction.isTerminator = false := by
      intro op hop
      rcases eq_nil_or_concat' block.operations with hnil | ⟨body, last, hops⟩
      · simp [hnil] at hop
      · rw [terminator?_append hops] at hterm
        rw [hops, dropLast_concat] at hblock
        rw [hops] at hop
        rcases mem_append.mp hop with hbody | hlast
        · exact hblock op hbody
        · obtain rfl := mem_singleton.mp hlast
          simpa using hterm
    rcases mem_withCopies.mp (mem_of_mem_dropLast hop) with hold | hnew
    · exact hall op hold
    · exact hcopies op hnew

variable {graph result : Graph} {phi : Operation} {dest : Operand} {b pos : Nat}

theorem loweredBlock_dropLast
    (hblock : ∀ op ∈ block.operations.dropLast, op.instruction.isTerminator = false) :
    ∀ op ∈ (loweredBlock temp phi dest b pos q block).operations.dropLast,
      op.instruction.isTerminator = false := by
  refine withCopies_dropLast copiesFor_not_terminator ?_
  intro op hop
  by_cases hq : q = b
  · simp only [if_pos hq, dropLast_eq_take, length_set, take_set] at hop
    rw [dropLast_eq_take] at hblock
    rcases mem_or_eq_of_mem_set hop with hold | rfl
    · exact hblock op hold
    · rfl
  · simp only [if_neg hq] at hop
    exact hblock op hop

theorem LowersThrough.eliminable (hlower : LowersInto graph phi dest b pos result)
    (helim : Eliminable graph) (hphi : PhiAt graph phi dest b pos)
    (hb : b < graph.size) : Eliminable result := by
  obtain ⟨home, hhome⟩ := Graph.exists_block hb
  have hmem : phi ∈ home.operations := mem_of_getElem? (hphi.place hhome)
  refine ⟨hlower.sameEdges.mirrored helim.mirrored, ?_, ?_, ?_⟩
  · intro q block op hblock hop hop'
    obtain ⟨old, hold, rfl⟩ := hlower.cases hblock
    rcases mem_loweredBlock hop with hop | rfl | ⟨src, -, rfl⟩
    · have hmatch : PhiMatches old.predecessors op := helim.phis hold hop hop'
      exact hmatch
    · simp [Operation.copy, Operation.isPhi] at hop'
    · simp [Operation.copy, Operation.isPhi] at hop'
  · intro q block op hblock hop
    obtain ⟨old, hold, rfl⟩ := hlower.cases hblock
    exact loweredBlock_dropLast (fun _ => helim.terminators hold) op hop
  · intro q block op opnd id hblock hop hopnd hid
    obtain ⟨old, hold, rfl⟩ := hlower.cases hblock
    rw [hlower.count]
    have hphiLocals : ∀ opnd ∈ phi.operands, opnd.localId? = some id →
        id < graph.locals.count + 1 := fun opnd hopnd hid =>
      Nat.lt_succ_of_lt (helim.locals hhome hmem hopnd hid)
    rcases mem_loweredBlock hop with hop | rfl | ⟨src, hsrc, rfl⟩
    · exact Nat.lt_succ_of_lt (helim.locals hold hop hopnd hid)
    · simp only [Operation.copy, Operation.operands, Option.toList_some, mem_append,
        mem_singleton] at hopnd
      rcases hopnd with rfl | rfl
      · exact hphiLocals opnd (by simp [Operation.operands, hphi.destination]) hid
      · cases hid
        exact Nat.lt_succ_self _
    · simp only [Operation.copy, Operation.operands, Option.toList_some, mem_append,
        mem_singleton] at hopnd
      rcases hopnd with rfl | rfl
      · cases hid
        exact Nat.lt_succ_self _
      · exact hphiLocals opnd (by simp [Operation.operands, hsrc]) hid

/-! ## The number of phis -/

theorem sum_map_eq_sum_range {α : Type} (xs : List α) (f : α → Nat) :
    (xs.map f).sum = ∑ k ∈ Finset.range xs.length, (xs[k]?.map f).getD 0 := by
  induction xs with
  | nil => rfl
  | cons x rest ih => simp [Finset.sum_range_succ', ih, Nat.add_comm]

theorem countP_operations (graph : Graph) : graph.operations.countP Operation.isPhi =
      ∑ q ∈ Finset.range graph.size, (graph.phis q).length := by
  rw [Graph.operations, countP_flatMap, sum_map_eq_sum_range]
  refine Finset.sum_congr (by simp [Graph.size]) fun q _ => ?_
  rw [Array.getElem?_toList, Graph.phis]
  cases graph.blocks[q]? <;> simp [countP_eq_length_filter]

theorem loweredBlock_countP (hphi : phi.isPhi)
    (hplace : q = b → block.operations[pos]? = some phi) :
    (loweredBlock temp phi dest b pos q block).operations.countP
        Operation.isPhi + (if q = b then 1 else 0) = block.operations.countP Operation.isPhi := by
  rw [loweredBlock, countP_eq_length_filter, filter_withCopies copiesFor_not_phi,
    ← countP_eq_length_filter]
  by_cases hq : q = b
  · obtain ⟨hlt, hget⟩ := List.getElem?_eq_some_iff.mp (hplace hq)
    have hcopy : (Operation.copy dest (.localVar temp dest.type)).isPhi = false := rfl
    have hpos : 0 < block.operations.countP Operation.isPhi :=
      countP_pos_iff.mpr ⟨phi, mem_of_getElem? (hplace hq), hphi⟩
    simp only [if_pos hq]
    rw [countP_set hlt, hget, hphi, hcopy]
    simp only [if_true, Bool.false_eq_true, if_false]
    omega
  · simp only [if_neg hq, Nat.add_zero]

/-- Lowering a phi takes one phi away and adds one local. -/
theorem LowersThrough.countP (hlower : LowersInto graph phi dest b pos result)
    (hphi : PhiAt graph phi dest b pos) (hb : b < graph.size) :
    result.operations.countP Operation.isPhi + 1 = graph.operations.countP Operation.isPhi := by
  have hcount : ∀ q ∈ Finset.range graph.size,
      (result.phis q).length + (if q = b then 1 else 0) = (graph.phis q).length := by
    intro q hq
    obtain ⟨block, hblock⟩ := Graph.exists_block (Finset.mem_range.mp hq)
    rw [Graph.phis_eq hblock, Graph.phis_eq (hlower.kept hblock), ← countP_eq_length_filter,
      ← countP_eq_length_filter]
    refine loweredBlock_countP hphi.isPhi ?_
    rintro rfl
    exact hphi.place hblock
  rw [countP_operations, countP_operations, hlower.size, ← Finset.sum_congr rfl hcount,
    Finset.sum_add_distrib, Finset.sum_ite_eq', if_pos (Finset.mem_range.mpr hb)]

theorem SplitsInto.countP {src target : Nat} (hsplit : SplitsInto graph src target result)
    (htarget : target < graph.size) :
    result.operations.countP Operation.isPhi = graph.operations.countP Operation.isPhi := by
  have hedge : result.phis graph.size = [] := Graph.phis_eq hsplit.edge
  rw [countP_operations, countP_operations, hsplit.size, Finset.sum_range_succ, hedge, length_nil,
    Nat.add_zero]
  refine Finset.sum_congr rfl fun q _ => ?_
  by_cases hq : q = target
  · rw [hq, hsplit.phis_target htarget, length_map]
  · rw [hsplit.phis_of_ne hq]

/-! ## The loops of the pass -/

/-- Every defined run of the source is a run of the target without the blocks from `edges` on
and the copies through locals from `count` on. -/
def Refines (edges count : Nat) (src target : Graph) : Prop :=
  ∀ (Value Memory : Type) (interp : Interpretation Value Memory) (args : List Value)
    (state : State Value Memory) (bound : Nat),
    (run interp args src bound (start state)).ending ≠ .undefined →
    ∃ longer, bound ≤ longer ∧ (run interp args target longer (start state)).erase
          (decide <| edges ≤ ·) (isInserted count) =
        (run interp args src bound (start state)).erase
          (decide <| edges ≤ ·) (isInserted count)

namespace Refines

variable {edges count : Nat} {src mid target : Graph}

theorem refl (graph : Graph) : Refines edges count graph graph :=
  fun _ _ _ _ _ bound _ => ⟨bound, Nat.le_refl _, rfl⟩

theorem trans (hfirst : Refines edges count src mid)
    (hsecond : Refines edges count mid target) : Refines edges count src target := by
  intro Value Memory interp args state bound hdefined
  obtain ⟨long, hlong, hrun⟩ := hfirst Value Memory interp args state bound hdefined
  have hending : (run interp args mid long (start state)).ending =
      (run interp args src bound (start state)).ending :=
    (Trace.mk.inj hrun).2
  obtain ⟨longer, hlonger, hrun'⟩ :=
    hsecond Value Memory interp args state long (hending ▸ hdefined)
  exact ⟨longer, Nat.le_trans hlong hlonger, hrun'.trans hrun⟩

end Refines

/-- The shape of a block put on an edge. -/
def IsEdgeBlock (count : Nat) (block : Block) : Prop :=
  ∃ copies, block.operations = copies ++ [.branch] ∧ (∀ op ∈ copies, isInserted count op) ∧
    block.successors.length = 1

/-- How far the pass has come from `before`. -/
structure Progress (before graph : Graph) : Prop where
  eliminable : Eliminable graph
  size : before.size ≤ graph.size
  count : before.locals.count ≤ graph.locals.count
  bound : graph.locals.count + graph.operations.countP Operation.isPhi ≤ twoPow 32
  refines : Refines before.size before.locals.count before graph
  edges : ∀ {b : Nat} {block : Block}, before.size ≤ b → graph.blocks[b]? = some block →
    IsEdgeBlock before.locals.count block

namespace Progress

variable {before : Graph}

variable (hprog : Progress before graph)
include hprog

/-- Blocks on edges have no phi. -/
theorem lt_size_of_phi (hphi : phi ∈ graph.phis b) : b < before.size := by
  obtain ⟨block, hblock, hmem, hisPhi⟩ := Graph.mem_phis_iff.mp hphi
  by_contra hge
  obtain ⟨copies, hops, hcopies, -⟩ := hprog.edges (Nat.not_lt.mp hge) hblock
  rw [hops] at hmem
  rcases mem_append.mp hmem with hcopy | hbranch
  · have hins := hcopies phi hcopy
    simp_all [isInserted, Operation.isPhi]
  · obtain rfl := mem_singleton.mp hbranch
    cases hisPhi

/-- One edge into the current block is split. -/
theorem split {src target : Nat} (hsplit : SplitsInto graph src target result)
    (hedge : target ∈ graph.successors src) (hphis : graph.phis target ≠ []) :
    Progress before result where
  eliminable := hsplit.eliminable hprog.eliminable hedge
  size := by rw [hsplit.size]; exact Nat.le_succ_of_le hprog.size
  count := by rw [hsplit.locals]; exact hprog.count
  bound := by rw [hsplit.locals, hsplit.countP (lt_size_of_phis hphis)]; exact hprog.bound
  refines := by
    refine hprog.refines.trans ?_
    intro Value Memory interp args state bound hdefined
    have hsim : Simulates interp args (decide <| before.size ≤ ·)
        (isInserted before.locals.count) graph result (SplitRelated interp graph src target) :=
      splitEdge_simulates hsplit hprog.eliminable hedge (by simpa using hprog.size) _
    have hentry : Graph.entry < graph.size := Nat.zero_lt_of_lt (Graph.source_lt_size hedge)
    exact hsim.run _ _ bound ⟨hentry, rfl, rfl, fun _ _ _ => by split <;> rfl⟩ hdefined
  edges := by
    obtain ⟨phi, hphi⟩ := exists_mem_of_ne_nil _ hphis
    have htarget := hprog.lt_size_of_phi hphi
    intro b block hb hblock
    rcases hsplit.cases hblock with ⟨old, hold, rfl⟩ | ⟨rfl, rfl⟩
    · obtain ⟨copies, hops, hcopies, hlength⟩ := hprog.edges hb hold
      refine ⟨copies, ?_, hcopies, ?_⟩
      · simp only [reroute, if_neg (show ¬b = target by omega), hops]
      · simp only [reroute]
        split <;> simp [hlength]
    · exact ⟨[], rfl, by simp, rfl⟩

/-- One phi of the current block is turned into copies. -/
theorem lower (hlower : LowersInto graph phi dest b pos result)
    (hphi : PhiAt graph phi dest b pos) (hb : b < graph.size) : Progress before result where
  eliminable := hlower.eliminable hprog.eliminable hphi hb
  size := by rw [hlower.size]; exact hprog.size
  count := by rw [hlower.count]; exact Nat.le_succ_of_le hprog.count
  bound := by
    have hcount := hlower.countP hphi hb
    have hbound := hprog.bound
    rw [hlower.count]
    omega
  refines := by
    refine hprog.refines.trans ?_
    intro Value Memory interp args state bound hdefined
    have hsim : Simulates interp args (decide <| before.size ≤ ·)
        (isInserted before.locals.count) graph result
        (LowerRelated interp graph.locals.count phi b) :=
      lowerPhi_simulates hlower hprog.eliminable hphi hb hprog.count _
    refine hsim.run _ _ bound ⟨rfl, AgreeOff.refl _, ?_, ?_⟩ hdefined
    · intro label past harr
      simp [start] at harr
    · intro _ value hvalue
      simp [start, phiValue] at hvalue
  edges := by
    have hbefore : b < before.size := by
      obtain ⟨home, hhome⟩ := Graph.exists_block hb
      exact hprog.lt_size_of_phi (Graph.mem_phis_iff.mpr
        ⟨home, hhome, mem_of_getElem? (hphi.place hhome), hphi.isPhi⟩)
    intro q block hq hblock
    obtain ⟨old, hold, rfl⟩ := hlower.cases hblock
    obtain ⟨copies, hops, hcopies, hlength⟩ := hprog.edges hq hold
    refine ⟨copies ++ copiesFor (.localVar graph.locals.count dest.type) phi.inputs q,
      ?_, ?_, hlength⟩
    · rw [loweredBlock, if_neg (by omega)]
      exact withCopies_of_terminator hops rfl
    · intro op hop
      rcases mem_append.mp hop with hop | hop
      · exact hcopies op hop
      · obtain ⟨input, -, rfl⟩ := mem_map.mp hop
        simp [isInserted, Operation.copy, Operation.operands, Operand.localId?, hprog.count]

end Progress

theorem stepKept_progress (before : Graph) : StepKept (Progress before) where
  mirrored hprog := hprog.eliminable.mirrored
  split hprog hsplit hedge hphis := hprog.split hsplit hedge hphis
  lower {graph result phi dest b pos} hprog hlower hphi hb := by
    -- there is a phi left, so the number of its temporary does not wrap around
    obtain ⟨home, hhome⟩ := Graph.exists_block hb
    have hpos : 0 < graph.operations.countP Operation.isPhi :=
      countP_pos_iff.mpr ⟨phi, mem_flatMap.mpr ⟨home, Array.mem_toList_iff.mpr
        (Array.mem_of_getElem? hhome), mem_of_getElem? (hphi.place hhome)⟩, hphi.isPhi⟩
    have hcount : graph.locals.count < twoPow 32 := by
      have := hprog.bound
      omega
    rw [Nat.mod_eq_of_lt hcount] at hlower
    exact hprog.lower hlower hphi hb

theorem Eliminable.lowerable (helim : Eliminable graph) : Lowerable graph := by
  refine ⟨helim.mirrored, fun b op hop => ?_, fun b op hop label hlabel => ?_⟩
  · obtain ⟨block, hblock, hmem, hphi⟩ := Graph.mem_phis_iff.mp hop
    have hmatch := helim.phis hblock hmem hphi
    exact ⟨hmatch.destination, hmatch.length⟩
  · obtain ⟨block, hblock, hmem, hphi⟩ := Graph.mem_phis_iff.mp hop
    have hlabel := (helim.phis hblock hmem hphi).labels.mem_iff.mp hlabel
    rw [← Graph.predecessors_eq hblock] at hlabel
    exact helim.mirrored.lt_size_of_predecessor hlabel

theorem exists_deconstruct {before : Graph} (helim : Eliminable before)
    (hbound : before.locals.count + before.operations.countP Operation.isPhi ≤ twoPow 32) :
    ∃ result splits, deconstruct before = .ok (result, splits) ∧ Progress before result ∧
      ∀ q, result.phis q = [] := by
  refine exists_deconstruct_kept (stepKept_progress before) helim.lowerable
    ⟨helim, Nat.le_refl _, Nat.le_refl _, hbound, Refines.refl _, ?_⟩
  intro b block hb hblock
  exact absurd (Graph.lt_size hblock) (Nat.not_lt.mpr hb)

/-! ## Runs of the graph before the pass -/

section

variable {Value Memory : Type} {interp : Interpretation Value Memory} {args : List Value}

variable {block : Block} {state : State Value Memory}

section

variable (helim : Eliminable graph)
include helim

theorem Eliminable.not_inserted (hblock : graph.blocks[b]? = some block) {op : Operation}
    (hop : op ∈ block.operations) : isInserted graph.locals.count op = false := by
  simp only [isInserted, Bool.and_eq_false_iff, any_eq_false]
  refine .inr fun opnd hopnd => ?_
  cases hid : opnd.localId? with
  | none => simp
  | some id => simpa using helim.locals hblock hop hopnd hid

theorem Eliminable.erasedVisit (hblock : graph.blocks[b]? = some block)
    {arrival : Option (Nat × State Value Memory)} {last : State Value Memory}
    {events : List (Machine.Event Value Memory)}
    (hexec : executeAll interp args arrival state block.operations = some (last, events)) :
    Machine.erasedVisit (decide <| graph.size ≤ ·) (isInserted graph.locals.count) ⟨b, events⟩ =
      [⟨b, events⟩] := by
  have hfilter : (events.filter fun event => !isInserted graph.locals.count event.operation) =
      events := filter_eq_self.mpr fun event hevent => by
    simp [helim.not_inserted hblock (operation_mem_of_event hexec event hevent)]
  simp [Machine.erasedVisit, Trace.erase, hfilter, Graph.lt_size hblock]

theorem Eliminable.erase_run (bound : Nat) (pos : Position Value Memory) :
    (run interp args graph bound pos).erase (decide <| graph.size ≤ ·)
        (isInserted graph.locals.count) = run interp args graph bound pos := by
  induction bound generalizing pos with
  | zero => rfl
  | succ bound ih =>
    cases hmove : move interp args graph pos with
    | halt trace =>
      simp only [run, hmove]
      by_cases hdefined : trace.ending = .undefined
      · rw [(move_eq_undefined hmove hdefined).1]
        rfl
      · rcases move_eq_halt hmove hdefined with
          ⟨-, rfl⟩ | ⟨block, state, events, hblock, hexec, hend⟩
        · rfl
        · have hvisit := helim.erasedVisit hblock hexec
          rcases hend with ⟨vals, -, rfl⟩ | ⟨slot, -, -, rfl⟩ <;>
            exact congrArg (Trace.mk · _) hvisit
    | go visit next =>
      obtain ⟨block, state, events, -, -, hblock, hexec, -, -, rfl, -⟩ := move_eq_go hmove
      rw [run_go _ _ hmove, ih, helim.erasedVisit hblock hexec]
      simp only [run, hmove]
      rfl

/-- Behind an edge every phi has its input, so runs stay defined. -/
theorem Eliminable.run_defined (bound : Nat) {pos : Position Value Memory} {label : Nat}
    {past : State Value Memory} (harr : pos.arrival = some (label, past))
    (hedge : pos.block ∈ graph.successors label) :
    (run interp args graph bound pos).ending ≠ .undefined := by
  induction bound generalizing pos label past with
  | zero => simp [run]
  | succ bound ih =>
    cases hmove : move interp args graph pos with
    | halt trace =>
      simp only [run, hmove]
      intro hundef
      obtain ⟨-, block, hblock, hnone⟩ := move_eq_undefined hmove hundef
      have hsome : (executeAll interp args pos.arrival pos.state block.operations).isSome := by
        refine executeAll_isSome (fun op hop hphi => ?_) _
        have hlabel := helim.mirrored.mem_iff.mp hedge
        rw [Graph.predecessors_eq hblock] at hlabel
        obtain ⟨src, hsrc⟩ := (helim.phis hblock hop hphi).exists_input hlabel
        simp [phiValue, harr, hsrc]
      simp [hnone] at hsome
    | go visit next =>
      obtain ⟨block, state, events, slot, target, hblock, -, -, hslot, -, rfl⟩ := move_eq_go hmove
      simp only [run, hmove]
      refine ih rfl ?_
      rw [Graph.successors_eq hblock]
      exact mem_of_getElem? hslot

/-- Only a phi in the entry block can lack its input. -/
theorem Eliminable.entry_hasPhi {bound : Nat}
    (hundef : (run interp args graph bound (start state)).ending = .undefined) :
    ∃ block, graph.blocks[Graph.entry]? = some block ∧ block.hasPhi := by
  cases bound with
  | zero => simp [run] at hundef
  | succ bound =>
    cases hmove : move interp args graph (start state) with
    | halt trace =>
      simp only [run, hmove] at hundef
      obtain ⟨-, block, hblock, hnone⟩ := move_eq_undefined hmove hundef
      refine ⟨block, hblock, ?_⟩
      by_contra hphi
      have hsome : (executeAll interp args none state block.operations).isSome :=
        executeAll_isSome (fun op hop hop' =>
          absurd (any_eq_true.mpr ⟨op, hop, hop'⟩) hphi) state
      have hnone' : executeAll interp args none state block.operations = none := hnone
      simp [hnone'] at hsome
    | go visit next =>
      obtain ⟨block, last, events, slot, target, hblock, -, -, hslot, -, rfl⟩ := move_eq_go hmove
      simp only [run, hmove] at hundef
      refine absurd hundef (helim.run_defined bound rfl ?_)
      rw [Graph.successors_eq hblock]
      exact mem_of_getElem? hslot

end

end

/-- Removing phis keeps every run. The result has no phi, its runs carry out the same operations
with the same values, and what they do beyond that are copies through new locals and passages
through blocks that make such copies and branch. A run has no meaning only if it meets a phi
in the entry block before any edge was taken. -/
theorem deconstruct_refines (helim : Eliminable graph)
    (hbound : graph.locals.count + graph.operations.countP Operation.isPhi ≤ 2 ^ 32) :
    ∃ result splits, deconstruct graph = .ok (result, splits) ∧
      (∀ op ∈ result.operations, op.isPhi = false) ∧
      (∀ b block, graph.size ≤ b → result.blocks[b]? = some block →
        IsEdgeBlock graph.locals.count block) ∧
      ∀ (Value Memory : Type) (interp : Interpretation Value Memory) (args : List Value)
        (state : State Value Memory) (bound : Nat),
        ((run interp args graph bound (start state)).ending = .undefined ∧
            ∃ block, graph.blocks[Graph.entry]? = some block ∧ block.hasPhi) ∨
          ∃ longer, bound ≤ longer ∧ (run interp args result longer (start state)).erase
                (decide <| graph.size ≤ ·) (isInserted graph.locals.count) =
              run interp args graph bound (start state) := by
  obtain ⟨result, splits, hresult, hdone, hfree⟩ := exists_deconstruct helim hbound
  refine ⟨result, splits, hresult, ?_, fun _ _ => hdone.edges, ?_⟩
  · intro op hop
    obtain ⟨block, hmem, hop⟩ := List.mem_flatMap.mp hop
    obtain ⟨b, hblock⟩ := List.mem_iff_getElem?.mp hmem
    rw [Array.getElem?_toList] at hblock
    by_contra hphi
    have hphi : op ∈ result.phis b :=
      Graph.mem_phis_iff.mpr ⟨block, hblock, hop, by simpa using hphi⟩
    simp [hfree b] at hphi
  · intro Value Memory interp args state bound
    by_cases hdefined : (run interp args graph bound (start state)).ending = .undefined
    · exact Or.inl ⟨hdefined, helim.entry_hasPhi hdefined⟩
    · obtain ⟨longer, hlonger, hrun⟩ :=
        hdone.refines Value Memory interp args state bound hdefined
      exact Or.inr ⟨longer, hlonger, hrun.trans (helim.erase_run bound _)⟩

/-- A loop that swaps two values on its back edge, which is critical. -/
def swapLoop : Graph where
  blocks := #[
    { index := 0, operations := [.branch], successors := [1] },
    { index := 1
      operations := [
        .phi (.localVar 0 .i64) [(0, .constant 1 .i64), (1, .localVar 1 .i64)],
        .phi (.localVar 1 .i64) [(0, .constant 2 .i64), (1, .localVar 0 .i64)],
        .branchIf .ne (.localVar 0 .i64) (.localVar 1 .i64)]
      successors := [2, 1]
      predecessors := [0, 1] },
    { index := 2
      operations := [.ret (.localVar 0 .i64)]
      predecessors := [1] }]
  locals := ⟨#[some .i64, some .i64]⟩

theorem swapLoop_eliminable : Eliminable swapLoop := by
  have hblocks : ∀ {b : Nat} {block : Block}, swapLoop.blocks[b]? = some block →
      block ∈ swapLoop.blocks.toList := fun h =>
    Array.mem_toList_iff.mpr (Array.mem_of_getElem? h)
  refine ⟨?_, ?_, ?_, ?_⟩
  · intro a b
    rcases a with _ | _ | _ | a <;> rcases b with _ | _ | _ | b <;>
      simp [swapLoop, Graph.successors, Graph.predecessors]
  · intro b block op hblock hop hphi
    have hcheck : ∀ block ∈ swapLoop.blocks.toList, ∀ op ∈ block.operations, op.isPhi →
        op.destination.isSome ∧ op.labels.length = op.sources.length ∧
          op.labels.Perm block.predecessors ∧
          ∀ first ∈ op.inputs, ∀ second ∈ op.inputs, first.1 = second.1 →
            first.2 = second.2 := by decide
    obtain ⟨hdest, hlength, hlabels, hcoherent⟩ := hcheck block (hblocks hblock) op hop hphi
    exact ⟨hdest, hlength, hlabels, fun hfirst hsecond => hcoherent _ hfirst _ hsecond rfl⟩
  · intro b block op hblock hop
    have hcheck : ∀ block ∈ swapLoop.blocks.toList, ∀ op ∈ block.operations.dropLast,
      op.instruction.isTerminator = false := by decide
    exact hcheck block (hblocks hblock) op hop
  · intro b block op opnd id hblock hop hopnd hid
    have hcheck : ∀ block ∈ swapLoop.blocks.toList, ∀ op ∈ block.operations,
      ∀ opnd ∈ op.operands, ∀ id ∈ opnd.localId?, id < swapLoop.locals.count := by decide
    exact hcheck block (hblocks hblock) op hop opnd hopnd id hid

/-- Both values of the loop survive the swap on its split back edge. -/
theorem deconstruct_refines_swapLoop : Eliminable swapLoop ∧
      ∃ result splits, deconstruct swapLoop = .ok (result, splits) ∧
        (∀ op ∈ result.operations, op.isPhi = false) ∧
        ∀ bound, ∃ longer, bound ≤ longer ∧
          (run numbers [] result longer (start zeroed)).erase (decide <| 3 ≤ ·) (isInserted 2) =
            run numbers [] swapLoop bound (start zeroed) := by
  obtain ⟨result, splits, hresult, hfree, -, hrefines⟩ :=
    deconstruct_refines swapLoop_eliminable (by decide)
  refine ⟨swapLoop_eliminable, result, splits, hresult, hfree, fun bound => ?_⟩
  refine (hrefines Nat Unit numbers [] zeroed bound).resolve_left ?_
  rintro ⟨-, block, hblock, hphi⟩
  cases hblock
  cases hphi

end GraphJit.SSA
