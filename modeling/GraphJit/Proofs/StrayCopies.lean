import GraphJit.Proofs.Analysis
import GraphJit.Proofs.PhiLowering
import GraphJit.Proofs.Results

/-! # Copies that have no block to go to

Removing a phi puts a copy into the block that each of its labels names. Labels are
not checked before, so there may be no such block. Edges that were split in the
meantime have added blocks, and a label may happen to name one of those.
-/

namespace GraphJit

open List GraphJit.Graph

/-- The phis of block `b`; a block that does not exist has none. -/
def Graph.phis (graph : Graph) (b : Nat) : List Operation := match graph.blocks[b]? with
  | some block => block.operations.filter Operation.isPhi
  | none => []

/-- How many edges into block `b` are split before its phis are removed. -/
def Graph.criticalEdges (graph : Graph) (b : Nat) : Nat :=
  if graph.phis b ≠ [] ∧ 1 < (graph.predecessors b).length then
    (graph.predecessors b).countP fun p => 1 < (graph.successors p).length
  else 0

/-- How many blocks there are once the edges into the first `n` blocks are split. -/
def Graph.sizeAfterSplits (graph : Graph) : Nat → Nat
  | 0 => graph.size
  | n + 1 => graph.sizeAfterSplits n + graph.criticalEdges n

/-- A phi of block `b` has a label that names no block at the time when it is removed. -/
def Graph.StrayCopyAt (graph : Graph) (b : Nat) : Prop :=
  ∃ op ∈ graph.phis b, ∃ label ∈ op.labels, graph.sizeAfterSplits (b + 1) ≤ label

/-- Every phi has a destination and a label for each of its sources. -/
def Graph.PhisFormed (graph : Graph) : Prop :=
  ∀ b, ∀ op ∈ graph.phis b, op.destination.isSome ∧ op.labels.length = op.sources.length

namespace Graph

variable {graph : Graph}

variable {b : Nat} {block : Block}

theorem phis_eq (hblock : graph.blocks[b]? = some block) :
    graph.phis b = block.operations.filter Operation.isPhi := by
  simp only [phis, hblock]

theorem mem_phis_iff {op : Operation} : op ∈ graph.phis b ↔
    ∃ block, graph.blocks[b]? = some block ∧ op ∈ block.operations ∧ op.isPhi := by
  unfold phis
  split
  next block hblock => simp [hblock]
  next hnone => simp [hnone]

theorem hasPhi_iff (hblock : graph.blocks[b]? = some block) : block.hasPhi ↔ graph.phis b ≠ [] := by
  simp [Block.hasPhi, phis_eq hblock]

theorem size_le_sizeAfterSplits (graph : Graph) (n : Nat) :
    graph.size ≤ graph.sizeAfterSplits n := by
  induction n with
  | zero => exact Nat.le_refl _
  | succ n ih => exact Nat.le_trans ih (Nat.le_add_right ..)

end Graph

namespace SSA

/-! ## Lowering the phis of a block -/

section Lower

variable {b : Nat} {graph mid result : Graph}

/-- What stays when phis of block `b` are turned into copies. -/
structure KeepsFlow (b : Nat) (graph result : Graph) : Prop where
  size : result.size = graph.size
  successors : ∀ q, result.successors q = graph.successors q
  predecessors : ∀ q, result.predecessors q = graph.predecessors q
  phis : ∀ q, q ≠ b → result.phis q = graph.phis q

theorem KeepsFlow.refl (b : Nat) (graph : Graph) : KeepsFlow b graph graph :=
  ⟨rfl, fun _ => rfl, fun _ => rfl, fun _ _ => rfl⟩

theorem KeepsFlow.trans (hfirst : KeepsFlow b graph mid) (hsecond : KeepsFlow b mid result) :
    KeepsFlow b graph result where
  size := hsecond.size.trans hfirst.size
  successors q := (hsecond.successors q).trans (hfirst.successors q)
  predecessors q := (hsecond.predecessors q).trans (hfirst.predecessors q)
  phis q hq := (hsecond.phis q hq).trans (hfirst.phis q hq)

variable {phi : Operation} {copies : List Operation} {block : Block}

theorem copiesFor_not_phi {temp : Operand} {inputs : List (Nat × Operand)} :
    ∀ op ∈ copiesFor temp inputs b, op.instruction.isTerminator = false ∧ op.isPhi = false := by
  intro op hop
  obtain ⟨input, -, rfl⟩ := mem_map.mp hop
  exact ⟨rfl, rfl⟩

theorem filter_withCopies (hcopies : ∀ op ∈ copies, op.instruction.isTerminator = false ∧
    op.isPhi = false) : (withCopies copies block).operations.filter Operation.isPhi =
      block.operations.filter Operation.isPhi := by
  have hnone : copies.filter Operation.isPhi = [] :=
    filter_eq_nil_iff.mpr fun op hop => by simp [(hcopies op hop).2]
  simp only [withCopies, filter_append, hnone, append_nil]
  rw [← filter_append, take_append_drop]

section

variable {temp pos : Nat} {dest : Operand}
  (hlower : LowersThrough temp graph phi dest b pos result)
include hlower

theorem LowersThrough.sameEdges : Dominance.SameEdges graph result :=
  ⟨hlower.size, fun hblock => ⟨_, hlower.kept hblock, rfl, rfl, rfl⟩⟩

theorem LowersThrough.keepsFlow : KeepsFlow b graph result where
  size := hlower.size
  successors := hlower.sameEdges.successors
  predecessors := hlower.sameEdges.predecessors
  phis q hq := by
    rcases Nat.lt_or_ge q graph.size with hlt | hge
    · obtain ⟨block, hblock⟩ := exists_block hlt
      rw [phis_eq hblock, phis_eq (hlower.kept hblock), loweredBlock,
        filter_withCopies copiesFor_not_phi, if_neg hq]
    · simp only [Graph.phis, hlower.sameEdges.blocks_none hge]

end

theorem exists_input_iff (hlength : phi.labels.length = phi.sources.length) {limit : Nat} :
    (∃ input ∈ phi.inputs, limit ≤ input.1) ↔ ∃ label ∈ phi.labels, limit ≤ label := by
  have hlabels : phi.inputs.map Prod.fst = phi.labels := map_fst_zip (Nat.le_of_eq hlength)
  rw [← hlabels]
  simp

theorem lowerPhi_cases (pos : Nat) (hb : b < graph.size) (hdest : phi.destination.isSome) :
    (∃ result, lowerPhi b pos graph phi = .ok result ∧ KeepsFlow b graph result ∧
        ¬∃ input ∈ phi.inputs, graph.size ≤ input.1) ∨
      (∃ cause, lowerPhi b pos graph phi = .error cause) ∧
        ∃ input ∈ phi.inputs, graph.size ≤ input.1 := by
  obtain ⟨dest, hdst⟩ := Option.isSome_iff_exists.mp hdest
  by_cases hlabels : ∀ input ∈ phi.inputs, input.1 < graph.size
  · obtain ⟨result, hresult, hlower⟩ := exists_lowersThrough pos hb hdst hlabels
    exact .inl ⟨result, hresult, hlower.keepsFlow, by simpa using hlabels⟩
  · refine .inr ⟨?_, by simpa using hlabels⟩
    let temp := (graph.newLocal dest.type).1
    -- copies add no blocks, so all labels are compared with the same size
    have hstep : ∀ state : Graph, state.size = graph.size → ∀ input ∈ phi.inputs,
        (∃ next, copyAtEnd temp state input = .ok next ∧ next.size = graph.size ∧
            ¬graph.size ≤ input.1) ∨
          (∃ cause, copyAtEnd temp state input = .error cause) ∧ graph.size ≤ input.1 := by
      intro state hsize input _
      rw [← hsize]
      rcases Nat.lt_or_ge input.1 state.size with hlabel | hlabel
      · exact .inl ⟨_, modify_eq_ok _ hlabel, by simp [Graph.size], Nat.not_le.mpr hlabel⟩
      · exact .inr ⟨⟨_, if_neg (Nat.not_lt.mpr hlabel)⟩, hlabel⟩
    have hnew : b < (graph.newLocal dest.type).2.size := hb
    simp only [lowerPhi, hdst, modify_eq_ok _ hnew]
    refine (foldlM_cases (fun state : Graph => state.size = graph.size) _ ?_ hstep).elim ?_ And.left
    · simp [Graph.size, Graph.newLocal]
    · rintro ⟨last, -, -, hall⟩
      exact absurd (by simpa using hall) hlabels

/-- The phis of a block are lowered unless one of their labels names no block. -/
theorem lowerPhis_cases {phis : List (Operation × Nat)} (hb : b < graph.size)
    (hformed : ∀ entry ∈ phis,
      entry.1.destination.isSome ∧ entry.1.labels.length = entry.1.sources.length) :
    (∃ result, lowerPhis b phis graph = .ok result ∧ KeepsFlow b graph result ∧
        ∀ entry ∈ phis, ¬∃ label ∈ entry.1.labels, graph.size ≤ label) ∨
      (∃ cause, lowerPhis b phis graph = .error cause) ∧
        ∃ entry ∈ phis, ∃ label ∈ entry.1.labels, graph.size ≤ label := by
  refine foldlM_cases (KeepsFlow b graph) (fun entry : Operation × Nat =>
    ∃ label ∈ entry.1.labels, graph.size ≤ label) (.refl b graph) ?_
  rintro state hstate ⟨phi, pos⟩ hentry
  obtain ⟨hdest, hlength⟩ := hformed _ hentry
  have hsize := hstate.size
  rw [← hsize, ← exists_input_iff hlength]
  rcases lowerPhi_cases pos (hsize ▸ hb) hdest with
    ⟨next, hnext, hflow, hgood⟩ | hfail
  · exact .inl ⟨next, hnext, hstate.trans hflow, hgood⟩
  · exact .inr hfail

end Lower

/-! ## Splitting the edges into a block -/

section Split

variable {b : Nat} {graph mid result : Graph}

/-- A phi whose labels from `limit` on are the same as before. -/
structure Relabelled (limit : Nat) (old new : Operation) : Prop where
  destination : new.destination = old.destination
  sources : new.sources = old.sources
  length : new.labels.length = old.labels.length
  mem_iff : ∀ label, limit ≤ label → (label ∈ new.labels ↔ label ∈ old.labels)

theorem Relabelled.refl (limit : Nat) (op : Operation) : Relabelled limit op op :=
  ⟨rfl, rfl, rfl, fun _ _ => Iff.rfl⟩

variable {src limit : Nat}

theorem Relabelled.trans {bound : Nat} {first second third : Operation}
    (hfirst : Relabelled bound first second) (hsecond : Relabelled limit second third)
    (hbound : bound ≤ limit) : Relabelled limit first third where
  destination := hsecond.destination.trans hfirst.destination
  sources := hsecond.sources.trans hfirst.sources
  length := hsecond.length.trans hfirst.length
  mem_iff label hlabel :=
    (hsecond.mem_iff label hlabel).trans (hfirst.mem_iff label (Nat.le_trans hbound hlabel))

theorem mem_replace_iff {labels : List Nat} {old new label : Nat} (hold : label ≠ old)
    (hnew : label ≠ new) : label ∈ labels.replace old new ↔ label ∈ labels := by
  by_cases hmem : old ∈ labels
  · have hcount := count_replace new hmem label
    rw [if_neg hold, if_neg hnew] at hcount
    rw [← count_pos_iff, ← count_pos_iff]
    omega
  · rw [replace_of_not_mem hmem]

theorem relabelled_relabel {mid : Nat} {op : Operation} (hphi : op.isPhi) (hsrc : src < limit)
    (hmiddle : mid < limit) : Relabelled limit op (relabel src mid op) := by
  rw [relabel, if_pos hphi]
  refine ⟨rfl, rfl, by simp, fun label hlabel => ?_⟩
  exact mem_replace_iff (by omega) (by omega)

/-- What splitting edges into block `b` does to the graph. -/
structure SplitsEdges (b : Nat) (graph result : Graph) : Prop where
  size : graph.size ≤ result.size
  successors : ∀ q < graph.size, (result.successors q).length = (graph.successors q).length
  predecessors : ∀ q < graph.size, q ≠ b → result.predecessors q = graph.predecessors q
  phis : ∀ q < graph.size, q ≠ b → result.phis q = graph.phis q
  forth : ∀ old ∈ graph.phis b, ∃ new ∈ result.phis b, Relabelled result.size old new
  back : ∀ new ∈ result.phis b, ∃ old ∈ graph.phis b, Relabelled result.size old new

namespace SplitsEdges

theorem refl (b : Nat) (graph : Graph) : SplitsEdges b graph graph where
  size := Nat.le_refl _
  successors _ _ := rfl
  predecessors _ _ _ := rfl
  phis _ _ _ := rfl
  forth op hop := ⟨op, hop, .refl _ op⟩
  back op hop := ⟨op, hop, .refl _ op⟩

theorem trans (hfirst : SplitsEdges b graph mid) (hsecond : SplitsEdges b mid result) :
    SplitsEdges b graph result where
  size := Nat.le_trans hfirst.size hsecond.size
  successors q hq := by
    rw [hsecond.successors q (Nat.lt_of_lt_of_le hq hfirst.size), hfirst.successors q hq]
  predecessors q hq hne := by
    rw [hsecond.predecessors q (Nat.lt_of_lt_of_le hq hfirst.size) hne,
      hfirst.predecessors q hq hne]
  phis q hq hne := by
    rw [hsecond.phis q (Nat.lt_of_lt_of_le hq hfirst.size) hne, hfirst.phis q hq hne]
  forth old hold := by
    obtain ⟨op, hop, hrel⟩ := hfirst.forth old hold
    obtain ⟨new, hnew, hagain⟩ := hsecond.forth op hop
    exact ⟨new, hnew, hrel.trans hagain hsecond.size⟩
  back new hnew := by
    obtain ⟨op, hop, hagain⟩ := hsecond.back new hnew
    obtain ⟨old, hold, hrel⟩ := hfirst.back op hop
    exact ⟨old, hold, hrel.trans hagain hsecond.size⟩

end SplitsEdges

theorem phis_of_size_le {q : Nat} (hq : graph.size ≤ q) : graph.phis q = [] := by
  have hnone : graph.blocks[q]? = none := Array.getElem?_eq_none hq
  simp only [Graph.phis, hnone]

theorem SplitsInto.phis_of_ne {q : Nat} (hsplit : SplitsInto graph src b result)
    (hne : q ≠ b) : result.phis q = graph.phis q := by
  by_cases hq : q = graph.size
  · rw [hq, phis_eq hsplit.edge, phis_of_size_le (Nat.le_refl _)]
    rfl
  · cases hblock : graph.blocks[q]? <;> simp [Graph.phis, hsplit.blocks, hq, hblock, reroute, hne]

theorem SplitsInto.phis_target (hsplit : SplitsInto graph src b result) (hb : b < graph.size) :
    result.phis b = (graph.phis b).map (relabel src graph.size) := by
  obtain ⟨block, hblock⟩ := exists_block hb
  rw [phis_eq (hsplit.kept hblock), phis_eq hblock]
  simp only [reroute, if_true, filter_map, Function.comp_def, relabel_isPhi]

theorem SplitsInto.splitsEdges (hsplit : SplitsInto graph src b result)
    (hsrc : src < graph.size) (hb : b < graph.size) : SplitsEdges b graph result := by
  have hsize := hsplit.size
  have hphis := hsplit.phis_target hb
  have hrelabel : ∀ op ∈ graph.phis b, Relabelled result.size op (relabel src graph.size op) := by
    intro op hop
    obtain ⟨-, -, -, hphi⟩ := Graph.mem_phis_iff.mp hop
    exact relabelled_relabel hphi (by omega) (by omega)
  refine ⟨by omega, fun q hq => ?_, fun q hq hne => ?_, fun _ _ => hsplit.phis_of_ne, ?_, ?_⟩
  · rw [hsplit.successors, if_neg (Nat.ne_of_lt hq)]
    split <;> simp
  · rw [hsplit.predecessors, if_neg (Nat.ne_of_lt hq), if_neg hne]
  · intro old hold
    exact ⟨_, hphis ▸ mem_map_of_mem hold, hrelabel old hold⟩
  · intro new hnew
    rw [hphis] at hnew
    obtain ⟨old, hold, rfl⟩ := mem_map.mp hnew
    exact ⟨old, hold, hrelabel old hold⟩

/-- The edges into a block can all be split, and each split adds a block. -/
theorem splitsEdges_splitCritical {remaining : List Nat} (hb : b < graph.size)
    (hleft : ∀ p ∈ remaining, p < graph.size) :
    ∃ result splits, splitCritical b graph remaining = .ok (result, splits) ∧
      SplitsEdges b graph result ∧ result.size = graph.size +
        remaining.countP fun p => 1 < (graph.successors p).length := by
  induction remaining generalizing graph with
  | nil => exact ⟨graph, 0, rfl, .refl b graph, rfl⟩
  | cons p rest ih =>
    have hp : p < graph.size := hleft p mem_cons_self
    obtain ⟨block, hblock⟩ := exists_block hp
    by_cases hcritical : 1 < block.successors.length
    · obtain ⟨mid, hmiddle, hsplit⟩ := exists_splitEdge hp hb
      -- a split adds a block and leaves all numbers of successors alone
      have hedges := hsplit.splitsEdges hp hb
      have hlonger : ∀ q < graph.size, q < mid.size := fun q hq =>
        Nat.lt_of_lt_of_le hq hedges.size
      obtain ⟨result, splits, hresult, hmore, hsize⟩ := ih (hlonger b hb)
        fun q hq => hlonger q (hleft q (.tail _ hq))
      refine ⟨result, splits + 1, ?_, hedges.trans hmore, ?_⟩
      · simp only [splitCritical, block_eq_ok hblock, bind, Except.bind, if_pos hcritical,
          hmiddle, hresult]
        rfl
      · have hcount : rest.countP (fun q => 1 < (mid.successors q).length) =
            rest.countP fun q => 1 < (graph.successors q).length :=
          countP_congr fun q hq => by
            rw [hedges.successors q (hleft q (.tail _ hq))]
        rw [hsize, hcount, hsplit.size, countP_cons, Graph.successors_eq hblock]
        simp only [hcritical, decide_true, if_true]
        omega
    · obtain ⟨result, splits, hresult, hmore, hsize⟩ := ih hb fun q hq =>
        hleft q (.tail _ hq)
      refine ⟨result, splits, ?_, hmore, ?_⟩
      · simp only [splitCritical, block_eq_ok hblock, bind, Except.bind, if_neg hcritical, hresult]
      · rw [hsize, countP_cons, Graph.successors_eq hblock]
        simp [hcritical]

end Split

/-! ## Going through the blocks -/

section Blocks

variable {b : Nat} {before graph mid result : Graph}

/-- The graph when the phis of the blocks before `done` are removed. The blocks from there on
have kept their phis and the edges into them. -/
structure Ahead (before : Graph) (done : Nat) (graph : Graph) : Prop where
  size : graph.size = before.sizeAfterSplits done
  successors : ∀ q < before.size, (graph.successors q).length = (before.successors q).length
  predecessors : ∀ q < before.size, done ≤ q → graph.predecessors q = before.predecessors q
  phis : ∀ q < before.size, done ≤ q → graph.phis q = before.phis q

theorem Ahead.lt_size (hahead : Ahead before b graph) {q : Nat} (hq : q < before.size) :
    q < graph.size :=
  hahead.size ▸ Nat.lt_of_lt_of_le hq (before.size_le_sizeAfterSplits b)

theorem Ahead.next (hahead : Ahead before b graph) (hedges : SplitsEdges b graph mid)
    (hflow : KeepsFlow b mid result) (hsize : mid.size = before.sizeAfterSplits (b + 1)) :
    Ahead before (b + 1) result where
  size := hflow.size.trans hsize
  successors q hq := by
    rw [hflow.successors, hedges.successors q (hahead.lt_size hq), hahead.successors q hq]
  predecessors q hq hdone := by
    rw [hflow.predecessors, hedges.predecessors q (hahead.lt_size hq) (by omega),
      hahead.predecessors q hq (by omega)]
  phis q hq hdone := by
    rw [hflow.phis q (by omega), hedges.phis q (hahead.lt_size hq) (by omega),
      hahead.phis q hq (by omega)]

variable {block : Block}

/-- The edges into the current block are split. -/
theorem Ahead.exists_split (hahead : Ahead before b graph) (hmirror : before.Mirrored)
    (hb : b < before.size) (hblock : graph.blocks[b]? = some block) (hphis : graph.phis b ≠ []) :
    ∃ mid splits, splitBefore b graph block = .ok (mid, splits) ∧ SplitsEdges b graph mid ∧
      mid.size = before.sizeAfterSplits (b + 1) := by
  have hpreds : block.predecessors = before.predecessors b :=
    (Graph.predecessors_eq hblock).symm.trans (hahead.predecessors b hb (Nat.le_refl _))
  rw [hahead.phis b hb (Nat.le_refl _)] at hphis
  rw [splitBefore, hpreds, sizeAfterSplits, criticalEdges]
  by_cases hmany : 1 < (before.predecessors b).length
  · have hrange : ∀ p ∈ before.predecessors b, p < graph.size := fun p hp =>
      hahead.lt_size (hmirror.lt_size_of_predecessor hp)
    obtain ⟨mid, splits, hmiddle, hedges, hsize⟩ :=
      splitsEdges_splitCritical (hahead.lt_size hb) hrange
    have hcount : (before.predecessors b).countP (fun p => 1 < (graph.successors p).length) =
        (before.predecessors b).countP fun p => 1 < (before.successors p).length :=
      countP_congr fun p hp => by
        rw [hahead.successors p (hmirror.lt_size_of_predecessor hp)]
    refine ⟨mid, splits, by rw [if_pos hmany, hmiddle], hedges, ?_⟩
    rw [hsize, hcount, hahead.size, if_pos ⟨hphis, hmany⟩]
  · refine ⟨graph, 0, if_neg hmany, .refl b graph, ?_⟩
    rw [hahead.size, if_neg fun h => hmany h.2, Nat.add_zero]

/-- A split leaves the labels alone that name no block. -/
theorem SplitsEdges.strayCopyAt_iff (hedges : SplitsEdges b graph mid)
    (hphis : graph.phis b = before.phis b) (hsize : mid.size = before.sizeAfterSplits (b + 1)) :
    before.StrayCopyAt b ↔ ∃ op ∈ mid.phis b, ∃ label ∈ op.labels, mid.size ≤ label := by
  rw [StrayCopyAt, ← hsize, ← hphis]
  constructor
  · rintro ⟨old, hold, label, hlabel, hlimit⟩
    obtain ⟨new, hnew, hrel⟩ := hedges.forth old hold
    exact ⟨new, hnew, label, (hrel.mem_iff label hlimit).mpr hlabel, hlimit⟩
  · rintro ⟨new, hnew, label, hlabel, hlimit⟩
    obtain ⟨old, hold, hrel⟩ := hedges.back new hnew
    exact ⟨old, hold, label, (hrel.mem_iff label hlimit).mp hlabel, hlimit⟩

theorem exists_position_iff (hblock : graph.blocks[b]? = some block) {op : Operation} :
    op ∈ graph.phis b ↔ ∃ pos, (op, pos) ∈ phisOf block := by
  rw [phis_eq hblock]
  simp only [phisOf, mem_filter, mem_zipIdx_iff_getElem?]
  rw [mem_iff_getElem?]
  exact ⟨fun ⟨⟨k, hk⟩, hphi⟩ => ⟨k, hk, hphi⟩, fun ⟨k, hk, hphi⟩ => ⟨⟨k, hk⟩, hphi⟩⟩

/-- One block loses its phis unless one of their labels names no block. -/
theorem lowerBlock_cases (hahead : Ahead before b graph) (hmirror : before.Mirrored)
    (hformed : before.PhisFormed) (hb : b < before.size) :
    (∃ answer, lowerBlock graph b = .ok answer ∧ Ahead before (b + 1) answer.1 ∧
        ¬before.StrayCopyAt b) ∨
      (∃ cause, lowerBlock graph b = .error cause) ∧ before.StrayCopyAt b := by
  obtain ⟨block, hblock⟩ := exists_block (hahead.lt_size hb)
  have hphis := hahead.phis b hb (Nat.le_refl _)
  by_cases hnone : graph.phis b = []
  · left
    have hhas : block.hasPhi = false := by
      simpa [hnone] using hasPhi_iff hblock
    have hsize : graph.size = before.sizeAfterSplits (b + 1) := by
      rw [hahead.size, sizeAfterSplits, criticalEdges, ← hphis, if_neg (by simp [hnone]),
        Nat.add_zero]
    refine ⟨(graph, 0), lowerBlock_of_no_phi hblock hhas,
      hahead.next (.refl b graph) (.refl b graph) hsize, ?_⟩
    simp [StrayCopyAt, ← hphis, hnone]
  · have hhas : block.hasPhi = true := (hasPhi_iff hblock).mpr hnone
    obtain ⟨mid, splits, hmiddle, hedges, hsize⟩ := hahead.exists_split hmirror hb hblock hnone
    have hb' : b < mid.size := Nat.lt_of_lt_of_le (hahead.lt_size hb) hedges.size
    obtain ⟨home, hhome⟩ := exists_block hb'
    -- splitting edges has changed labels, but neither destinations nor the number of labels
    have hready : ∀ entry ∈ phisOf home,
        entry.1.destination.isSome ∧ entry.1.labels.length = entry.1.sources.length := by
      rintro ⟨new, pos⟩ hentry
      obtain ⟨old, hold, hrel⟩ := hedges.back new ((exists_position_iff hhome).mpr ⟨_, hentry⟩)
      rw [hrel.destination, hrel.sources, hrel.length]
      exact hformed b old (hphis ▸ hold)
    have hstray : before.StrayCopyAt b ↔
        ∃ entry ∈ phisOf home, ∃ label ∈ entry.1.labels, mid.size ≤ label := by
      rw [hedges.strayCopyAt_iff hphis hsize]
      simp only [exists_position_iff hhome, Prod.exists]
      constructor
      · rintro ⟨op, ⟨pos, hentry⟩, hlabel⟩
        exact ⟨op, pos, hentry, hlabel⟩
      · rintro ⟨op, pos, hentry, hlabel⟩
        exact ⟨op, ⟨pos, hentry⟩, hlabel⟩
    rw [lowerBlock_eq hblock hhas hmiddle hhome, hstray]
    rcases lowerPhis_cases hb' hready with ⟨result, hresult, hflow, hall⟩ | ⟨⟨cause, hcause⟩, hbad⟩
    · rw [hresult]
      exact .inl ⟨(result, splits), rfl, hahead.next hedges hflow hsize, by simpa using hall⟩
    · rw [hcause]
      exact .inr ⟨⟨cause, rfl⟩, hbad⟩

theorem ahead_start (graph : Graph) : Ahead graph 0 graph :=
  ⟨rfl, fun _ _ => rfl, fun _ _ _ => rfl, fun _ _ _ => rfl⟩

/-- The first `n` blocks lose their phis unless a label of theirs names no block. -/
theorem lowerBlocks_cases (hmirror : graph.Mirrored) (hformed : graph.PhisFormed) (n : Nat)
    (hn : n ≤ graph.size) : (∃ answer, lowerBlocks graph n = .ok answer ∧ Ahead graph n answer.1 ∧
        ∀ b < n, ¬graph.StrayCopyAt b) ∨
      (∃ cause, lowerBlocks graph n = .error cause) ∧ ∃ b < n, graph.StrayCopyAt b := by
  induction n with
  | zero => exact .inl ⟨(graph, 0), rfl, ahead_start graph, by simp⟩
  | succ n ih =>
    rw [lowerBlocks_succ]
    rcases ih (by omega) with ⟨⟨mid, total⟩, hmiddle, hahead, hall⟩ | ⟨⟨cause, hcause⟩, b, hb, hstray⟩
    · rw [hmiddle]
      change (∃ answer, lowerNext (mid, total) n = .ok answer ∧ _) ∨
        (∃ cause, lowerNext (mid, total) n = .error cause) ∧ _
      rcases lowerBlock_cases hahead hmirror hformed hn with
        ⟨⟨result, count⟩, hresult, hnext, hgood⟩ | ⟨⟨cause, hcause⟩, hstray⟩
      · refine .inl ⟨(result, total + count), bind_eq_ok.mpr ⟨_, hresult, rfl⟩, hnext, ?_⟩
        intro b hb
        rcases Nat.lt_succ_iff_lt_or_eq.mp hb with hlt | rfl
        · exact hall b hlt
        · exact hgood
      · refine .inr ⟨⟨cause, ?_⟩, n, Nat.lt_succ_self n, hstray⟩
        rw [lowerNext, hcause]
        rfl
    · rw [hcause]
      exact .inr ⟨⟨cause, rfl⟩, b, Nat.lt_succ_of_lt hb, hstray⟩

theorem lt_size_of_strayCopyAt (hstray : graph.StrayCopyAt b) : b < graph.size := by
  obtain ⟨op, hop, -⟩ := hstray
  obtain ⟨block, hblock, -⟩ := Graph.mem_phis_iff.mp hop
  exact Graph.lt_size hblock

/-- Removing all phis fails exactly where a copy has no block to go to. -/
theorem deconstruct_cases (hmirror : graph.Mirrored) (hformed : graph.PhisFormed) :
    (∃ answer, deconstruct graph = .ok answer ∧ ¬∃ b, graph.StrayCopyAt b) ∨
      (∃ cause, deconstruct graph = .error cause) ∧ ∃ b, graph.StrayCopyAt b := by
  rcases lowerBlocks_cases hmirror hformed graph.size (Nat.le_refl _) with
    ⟨answer, hanswer, -, hall⟩ | ⟨hfail, b, -, hstray⟩
  · refine .inl ⟨answer, hanswer, ?_⟩
    rintro ⟨b, hstray⟩
    exact hall b (lt_size_of_strayCopyAt hstray) hstray
  · exact .inr ⟨hfail, b, hstray⟩

end Blocks

end SSA

end GraphJit
