import GraphJit.Proofs.DominatorTree
import GraphJit.Proofs.GuestVariables

/-! # Where phis are placed

The blocks that get a phi for a register are the iterated frontier of the blocks
that define it. So an edge into a block without one leads from below its parent,
past no definition of the register.
-/

namespace GraphJit.SSA

open Dominance DominatorTree GraphJit.Graph List

variable {graph : Graph} {reg : GuestRegister} {insert : Block → Block}

/-! ## Closure under frontiers -/

section Worklist

variable {frontier : Nat → List Nat} {work found result : List Nat}

/-- The worklist run until it is empty, with no bound on the steps. -/
inductive Fills (frontier : Nat → List Nat) : List Nat → List Nat → List Nat → Prop where
  | done {found : List Nat} : Fills frontier [] found found
  | visit {b : Nat} {work found added result : List Nat}
      (hadded : added = (frontier b).filter fun join => !found.contains join)
      (hrest : Fills frontier (added ++ work) (found ++ added) result) :
      Fills frontier (b :: work) found result

/-- The worklist never runs out of fuel. -/
theorem fills_closeUnder {size fuel : Nat} (hrange : ∀ b, ∀ join ∈ frontier b, join < size)
    (hnodup : ∀ b, (frontier b).Nodup) (hfound : found.Nodup) (hinside : ∀ b ∈ found, b < size)
    (hfuel : work.length + size ≤ fuel + found.length) :
    Fills frontier work found (closeUnder frontier fuel work found) ∧
      (closeUnder frontier fuel work found).Nodup := by
  induction fuel generalizing work found with
  | zero =>
    have hsub : found ⊆ List.range size := fun b hb => mem_range.mpr (hinside b hb)
    have hle : found.length ≤ size := by simpa using (hfound.subperm hsub).length_le
    obtain rfl : work = [] := length_eq_zero_iff.mp (by omega)
    exact ⟨.done, hfound⟩
  | succ fuel ih =>
    cases work with
    | nil => exact ⟨.done, hfound⟩
    | cons b work =>
      rw [closeUnder]
      let added := (frontier b).filter fun join => !found.contains join
      have hadded : ∀ join ∈ added, join ∈ frontier b ∧ join ∉ found := by
        simp [added, mem_filter]
      obtain ⟨hfills, hresult⟩ := @ih (added ++ work) (found ++ added)
        (nodup_append.mpr ⟨hfound, (hnodup b).filter _,
          fun x hx y hy hxy => (hadded y hy).2 (hxy ▸ hx)⟩)
        (fun c hc => (mem_append.mp hc).elim (hinside c) fun hc => hrange b c (hadded c hc).1)
        (by
          simp only [length_append, length_cons] at hfuel ⊢
          omega)
      exact ⟨.visit rfl hfills, hresult⟩

namespace Fills

variable (hfills : Fills frontier work found result)
include hfills

/-- What is closed but for the blocks in the worklist ends up closed. -/
theorem closed {start : Nat → Prop}
    (hclosed : ∀ b, start b ∨ b ∈ found → b ∈ work ∨ ∀ join ∈ frontier b, join ∈ found) :
    ∀ b, start b ∨ b ∈ result → ∀ join ∈ frontier b, join ∈ result := by
  induction hfills with
  | done => exact fun b hb => (hclosed b hb).resolve_left (by simp)
  | @visit b work found added result hadded _ ih =>
    have hmem : ∀ join, join ∈ added ↔ join ∈ frontier b ∧ join ∉ found := by
      simp [hadded, mem_filter]
    refine ih fun c hc => ?_
    by_cases hcb : c = b
    · subst hcb
      refine .inr fun join hjoin => ?_
      by_cases hold : join ∈ found
      · exact mem_append_left _ hold
      · exact mem_append_right _ ((hmem join).mpr ⟨hjoin, hold⟩)
    by_cases hnew : c ∈ added
    · exact .inl (mem_append_left _ hnew)
    rcases hclosed c (hc.imp_right fun h => (mem_append.mp h).resolve_right hnew) with hwork | hall
    · exact .inl (mem_append_right _ ((mem_cons.mp hwork).resolve_left hcb))
    · exact .inr fun join hjoin => mem_append_left _ (hall join hjoin)

/-- Nothing gets in that closure does not force. -/
theorem forced {needed : Nat → Prop} (hstep : ∀ b, needed b → ∀ join ∈ frontier b, needed join)
    (hwork : ∀ b ∈ work, ∀ join ∈ frontier b, needed join) (hfound : ∀ b ∈ found, needed b) :
    ∀ b ∈ result, needed b := by
  induction hfills with
  | done => exact hfound
  | @visit b work found added result hadded _ ih =>
    have hnew : ∀ join ∈ added, needed join := fun join hjoin =>
      hwork b mem_cons_self join (mem_filter.mp (hadded ▸ hjoin)).1
    exact ih (forall_mem_append.mpr ⟨fun c hc => hstep c (hnew c hc),
      fun c hc => hwork c (mem_cons_of_mem b hc)⟩) (forall_mem_append.mpr ⟨hfound, hnew⟩)

end Fills

end Worklist

/-! ## The blocks of one register -/

/-- Every frontier lists blocks of the graph, none of them twice. -/
structure Annotated (graph : Graph) : Prop where
  indexed : graph.Indexed
  frontier_lt : ∀ {b r : Nat}, b ∈ frontierOf graph r → b < graph.size
  frontier_nodup : ∀ r, (frontierOf graph r).Nodup

theorem Annotated.of_analyzed (hdoms : Analyzed graph) : Annotated graph :=
  ⟨hdoms.indexed, hdoms.frontier_lt, hdoms.frontier_nodup⟩

/-- The operation writes the register. -/
def Defines (op : Operation) (reg : GuestRegister) : Prop :=
  op.destination.bind Operand.register? = some reg

instance (op : Operation) (reg : GuestRegister) : Decidable (Defines op reg) :=
  inferInstanceAs (Decidable (_ = _))

/-- The least set with the frontiers of the blocks in the tree that write the register and of
its own blocks. -/
inductive NeedsPhi (graph : Graph) (reg : GuestRegister) : Nat → Prop where
  | definition {b join : Nat} {block : Block} {op : Operation}
      (hreach : (ofGraph graph).isReachable b) (hblock : graph.blocks[b]? = some block)
      (hop : op ∈ block.operations) (hdefs : Defines op reg)
      (hjoin : join ∈ frontierOf graph b) : NeedsPhi graph reg join
  | phi {b join : Nat} (hb : NeedsPhi graph reg b) (hjoin : join ∈ frontierOf graph b) :
      NeedsPhi graph reg join

theorem NeedsPhi.inside {b : Nat} (hb : NeedsPhi graph reg b) : ∃ c, b ∈ frontierOf graph c := by
  cases hb with
  | definition _ _ _ _ hjoin => exact ⟨_, hjoin⟩
  | phi _ hjoin => exact ⟨_, hjoin⟩

theorem mem_definingBlocks_iff (hidx : graph.Indexed) {b : Nat} :
    b ∈ definingBlocks graph (ofGraph graph) reg ↔ (ofGraph graph).isReachable b ∧
      ∃ block, graph.blocks[b]? = some block ∧ ∃ op ∈ block.operations, Defines op reg := by
  simp only [definingBlocks, mem_map, mem_filter, mem_blocks_iff, Bool.and_eq_true,
    any_eq_true, beq_iff_eq, Defines]
  constructor
  · rintro ⟨block, ⟨⟨c, hblock⟩, hreach, hop⟩, rfl⟩
    have hindex : block.index = c := hidx hblock
    exact ⟨hreach, block, hindex ▸ hblock, hop⟩
  · rintro ⟨hreach, block, hblock, hop⟩
    have hindex : block.index = b := hidx hblock
    exact ⟨block, ⟨⟨b, hblock⟩, hindex ▸ hreach, hop⟩, hindex⟩

section

variable (hannot : Annotated graph)
include hannot

theorem fills_phiBlocks (reg : GuestRegister) :
    Fills (frontierOf graph) (definingBlocks graph (ofGraph graph) reg) []
        (phiBlocks graph (ofGraph graph) reg) ∧
      (phiBlocks graph (ofGraph graph) reg).Nodup :=
  fills_closeUnder (fun _ _ => hannot.frontier_lt) hannot.frontier_nodup nodup_nil
    (by simp) (Nat.le_refl _)

theorem mem_phiBlocks_iff {b : Nat} :
    b ∈ phiBlocks graph (ofGraph graph) reg ↔ NeedsPhi graph reg b := by
  obtain ⟨hfills, -⟩ := fills_phiBlocks hannot reg
  constructor
  · refine hfills.forced (fun b hb join hjoin => .phi hb hjoin) (fun b hb join hjoin => ?_)
      (by simp) b
    obtain ⟨hreach, block, hblock, op, hop, hdefs⟩ :=
      (mem_definingBlocks_iff hannot.indexed).mp hb
    exact .definition hreach hblock hop hdefs hjoin
  · have hclosed := hfills.closed fun b hb => .inl (hb.resolve_right not_mem_nil)
    intro hb
    induction hb with
    | definition hreach hblock hop hdefs hjoin =>
      exact hclosed _ (.inl ((mem_definingBlocks_iff hannot.indexed).mpr
        ⟨hreach, _, hblock, _, hop, hdefs⟩)) _ hjoin
    | phi _ hjoin ih => exact hclosed _ (.inr ih) _ hjoin

end

/-- An edge into a block without a phi passes no definition since the parent of the block. -/
theorem not_defined_between (hdoms : Analyzed graph) {p b v c : Nat} (hb : b ≠ entry)
    (hedge : graph.Edge p b) (hreach : graph.Reachable p) (hparent : parentOf graph b = some v)
    (hphi : b ∉ phiBlocks graph (ofGraph graph) reg) (hcp : Above (parentOf graph) c p)
    (hcv : ¬Above (parentOf graph) c v) : c ∉ definingBlocks graph (ofGraph graph) reg ∧
      c ∉ phiBlocks graph (ofGraph graph) reg := by
  have hannot := Annotated.of_analyzed hdoms
  have hjoin : b ∈ frontierOf graph c :=
    (hdoms.frontier_iff hb c).mpr ⟨p, v, hedge, hreach, hparent, hcp, hcv⟩
  rw [mem_phiBlocks_iff hannot] at hphi
  rw [mem_phiBlocks_iff hannot, mem_definingBlocks_iff hannot.indexed]
  refine ⟨?_, fun h => hphi (.phi h hjoin)⟩
  rintro ⟨hreach, block, hblock, op, hop, hdefs⟩
  exact hphi (.definition hreach hblock hop hdefs hjoin)

/-! ## The graph with phis -/

/-- The phis of a block, those of later variables first. -/
def phisFor (graph : Graph) (vars : List GuestVariable) (b : Nat) (preds : List Nat) :
    List Operation :=
  (vars.filter fun var =>
    (phiBlocks graph (ofGraph graph) var.register).contains b).reverse.map (emptyPhi · preds)

def withPhis (graph : Graph) (vars : List GuestVariable) (b : Nat) (block : Block) : Block :=
  { block with operations := phisFor graph vars b block.predecessors ++ block.operations }

theorem foldl_modify {targets : List Nat} (hnodup : targets.Nodup) (blocks : Array Block)
    (b : Nat) : (targets.foldl (fun blocks b => blocks.modify b insert) blocks)[b]? =
      if b ∈ targets then blocks[b]?.map insert else blocks[b]? := by
  induction targets generalizing blocks with
  | nil => simp
  | cons target rest ih =>
    obtain ⟨hnot, hrest⟩ := nodup_cons.mp hnodup
    rw [foldl_cons, ih hrest, Array.getElem?_modify]
    by_cases heq : target = b
    · subst heq
      simp [hnot]
    · simp [heq, Ne.symm heq]

/-- Each step adds one operation. -/
theorem length_foldl_modify {targets : List Nat} {blocks : Array Block}
    (hinsert : ∀ block, (insert block).operations.length = block.operations.length + 1)
    (hinside : ∀ b ∈ targets, b < blocks.size) :
    ((targets.foldl (fun blocks b => blocks.modify b insert) blocks).toList.flatMap
        (·.operations)).length =
      (blocks.toList.flatMap (·.operations)).length + targets.length := by
  induction targets generalizing blocks with
  | nil => rfl
  | cons b rest ih =>
    obtain ⟨hb, hrest⟩ := forall_mem_cons.mp hinside
    rw [foldl_cons, ih (by simpa using hrest)]
    obtain ⟨before, block, after, hsplit, hbefore⟩ : ∃ before block after,
        blocks.toList = before ++ block :: after ∧ before.length = b :=
      ⟨_, _, _, (take_append_drop b _).symm.trans (by rw [drop_eq_getElem_cons (by simpa using hb)]),
        by simp; omega⟩
    have hmodify : (blocks.modify b insert).toList = before ++ insert block :: after := by
      rw [Array.toList_modify, hsplit, ← hbefore]
      simp [modify_eq_take_drop]
    simp only [hmodify, hsplit, flatMap_append, flatMap_cons, length_append, hinsert, length_cons]
    omega

/-- The graph in which the phis of some variables are in place. -/
structure HasPhis (graph : Graph) (vars : List GuestVariable) (result : Graph) : Prop where
  locals : result.locals = graph.locals
  size : result.size = graph.size
  kept : ∀ {b : Nat} {block : Block}, graph.blocks[b]? = some block →
    result.blocks[b]? = some (withPhis graph vars b block)

namespace HasPhis

variable {vars : List GuestVariable} {result : Graph}

section

variable (hphis : HasPhis graph vars result)
include hphis

theorem blocks_none {b : Nat} (hb : graph.size ≤ b) :
    result.blocks[b]? = none ∧ graph.blocks[b]? = none := by
  have := hphis.size
  simp only [Graph.size, Array.getElem?_eq_none_iff] at *
  omega

theorem toList (hidx : graph.Indexed) : result.blocks.toList =
      graph.blocks.toList.map fun block => withPhis graph vars block.index block := by
  refine ext_getElem? fun b => ?_
  rw [getElem?_map, Array.getElem?_toList, Array.getElem?_toList]
  cases hblock : graph.blocks[b]? with
  | none => exact (hphis.blocks_none (by simpa [Graph.size] using hblock)).1
  | some block =>
    have hindex : block.index = b := hidx hblock
    rw [hphis.kept hblock, Option.map_some, hindex]

theorem frontierOf_eq (b : Nat) : frontierOf result b = frontierOf graph b := by
  rcases Nat.lt_or_ge b graph.size with hb | hb
  · obtain ⟨block, hblock⟩ := exists_block hb
    simp only [frontierOf, hphis.kept hblock, hblock, withPhis]
  · simp only [frontierOf, hphis.blocks_none hb]

theorem phiBlocks_eq (hidx : graph.Indexed) (hreg : reg ∉ vars.map (·.register)) :
    phiBlocks result (ofGraph graph) reg = phiBlocks graph (ofGraph graph) reg := by
  have hany : ∀ block : Block, ((withPhis graph vars block.index block).operations.any fun op =>
        op.destination.bind Operand.register? == some reg) =
      block.operations.any fun op =>
        op.destination.bind Operand.register? == some reg := by
    intro block
    have hnone : ((phisFor graph vars block.index block.predecessors).any fun op =>
        op.destination.bind Operand.register? == some reg) = false := by
      rw [any_eq_false]
      intro op hop
      obtain ⟨var, hvar, rfl⟩ := mem_map.mp hop
      have hmem : var ∈ vars := mem_of_mem_filter (mem_reverse.mp hvar)
      have hne : var.register ≠ reg := fun h =>
        hreg (mem_map.mpr ⟨var, hmem, h⟩)
      simpa [emptyPhi, Operation.phi, Operand.register?] using hne
    rw [withPhis, any_append, hnone, Bool.false_or]
  have hdefns : definingBlocks result (ofGraph graph) reg =
      definingBlocks graph (ofGraph graph) reg := by
    unfold definingBlocks
    rw [hphis.toList hidx, filter_map, map_map]
    simp only [Function.comp_def, hany]
    rfl
  have hfront : frontierOf result = frontierOf graph := funext hphis.frontierOf_eq
  rw [phiBlocks, phiBlocks, hdefns, hfront, hphis.size]

/-- The phis of one more variable. -/
theorem placePhis (hannot : Annotated graph) {var : GuestVariable}
    (hvar : var.register ∉ vars.map (·.register)) :
    HasPhis graph (vars ++ [var]) (placePhis (ofGraph graph) result var) := by
  have hblocks := hphis.phiBlocks_eq hannot.indexed hvar
  refine ⟨hphis.locals, ?_, ?_⟩
  · exact (size_foldl (fun _ _ => Array.size_modify) ..).trans hphis.size
  · intro b block hblock
    have hnodup := (fills_phiBlocks hannot var.register).2
    simp only [SSA.placePhis, hblocks]
    rw [foldl_modify hnodup, hphis.kept hblock]
    by_cases hb : b ∈ phiBlocks graph (ofGraph graph) var.register
    · simp [hb, withPhis, phisFor, filter_append]
    · simp [hb, withPhis, phisFor, filter_append]

/-- The phis of more variables; those placed since are counted. -/
theorem foldl_placePhis (hannot : Annotated graph) {more : List GuestVariable}
    (hnodup : ((vars ++ more).map (·.register)).Nodup) (count : Nat) :
    let placed := more.foldl (fun placed var => (SSA.placePhis (ofGraph graph) placed.1 var,
      placed.2 + (phiBlocks placed.1 (ofGraph graph) var.register).length)) (result, count)
    HasPhis graph (vars ++ more) placed.1 ∧
      placed.1.operations.length + count = result.operations.length + placed.2 := by
  induction more generalizing vars result count with
  | nil => simpa using hphis
  | cons var rest ih =>
    have hvar : var.register ∉ vars.map (·.register) := by
      intro hmem
      rw [map_append] at hnodup
      exact disjoint_of_nodup_append hnodup hmem (by simp)
    have hinside : ∀ b ∈ phiBlocks result (ofGraph graph) var.register, b < result.size := by
      intro b hb
      rw [hphis.phiBlocks_eq hannot.indexed hvar, mem_phiBlocks_iff hannot] at hb
      obtain ⟨c, hc⟩ := hb.inside
      exact hphis.size ▸ hannot.frontier_lt hc
    have hlength : (SSA.placePhis (ofGraph graph) result var).operations.length =
        result.operations.length + (phiBlocks result (ofGraph graph) var.register).length :=
      length_foldl_modify (fun _ => rfl) hinside
    obtain ⟨hrest, hcount⟩ := ih (hphis.placePhis hannot hvar) (by simpa using hnodup)
      (count + (phiBlocks result (ofGraph graph) var.register).length)
    refine ⟨by simpa using hrest, ?_⟩
    simp only [foldl_cons]
    omega

end

end HasPhis

theorem hasPhis_insertPhis (hannot : Annotated graph) {vars : List GuestVariable}
    (hnodup : (vars.map (·.register)).Nodup) :
    HasPhis graph vars (insertPhis graph vars (ofGraph graph)).1 ∧
      (insertPhis graph vars (ofGraph graph)).1.operations.length =
        graph.operations.length + (insertPhis graph vars (ofGraph graph)).2 := by
  have hstart : HasPhis graph [] graph := by
    refine ⟨rfl, rfl, fun hblock => ?_⟩
    simpa [withPhis, phisFor] using hblock
  exact hstart.foldl_placePhis hannot (by simpa using hnodup) 0

theorem insertPhis_fst (graph : Graph) (vars : List GuestVariable) (tree : DominatorTree) :
    (insertPhis graph vars tree).1 = vars.foldl (placePhis tree) graph :=
  (vars.foldl_hom Prod.fst fun _ _ => rfl).symm

end GraphJit.SSA
