import GraphJit.IR.Printer
import GraphJit.Proofs.CompilationFaults
import GraphJit.Proofs.RewrittenOperations

/-! # Graphs that are edited step by step

Edges are stored at both of their ends, and the two entries are written one after the
other. The main statement: whatever edits and passes a graph has gone through since it
was empty or read from text, its blocks carry their positions, no edge leaves it, and
every edge is counted as often at its target as at its source.
-/

namespace GraphJit

open GraphJit.Graph Dominance SSA

/-- Blocks carry their positions, and both ends of an edge list it equally often. -/
structure Graph.Linked (graph : Graph) : Prop where
  indexed : graph.Indexed
  mirrored : graph.Mirrored

variable {graph result : Graph}

theorem linked_of_size_eq_zero (hsize : graph.size = 0) : graph.Linked := by
  have hnone (b : Nat) : graph.blocks[b]? = none :=
    Array.getElem?_eq_none (Nat.le_of_eq hsize |>.trans (Nat.zero_le b))
  constructor
  · intro b block hblock
    rw [hnone] at hblock
    cases hblock
  · intro a b
    simp [successors, predecessors, hnone]

theorem linked_of_parse {text : String} (hparse : Graph.parse text = .ok graph) : graph.Linked :=
  ⟨(mirrored_and_indexed_of_parse hparse).2, (mirrored_and_indexed_of_parse hparse).1⟩

theorem Dominance.SameEdges.linked (hsame : SameEdges graph result) (hlinked : graph.Linked) :
    result.Linked :=
  ⟨hsame.indexed hlinked.indexed, hsame.mirrored hlinked.mirrored⟩

/-! ## Single edits -/

section

variable (hlinked : graph.Linked)
include hlinked

theorem linked_addBlock : graph.addBlock.Linked := by
  constructor
  · intro b block hblock
    rw [addBlock, Array.getElem?_push] at hblock
    split at hblock
    next hb =>
      cases hblock
      exact hb.symm
    next => exact hlinked.indexed hblock
  · -- the new block has no edges, like a block that does not exist
    intro a b
    have hab := hlinked.mirrored a b
    simp only [successors, predecessors, addBlock, Array.getElem?_push] at hab ⊢
    by_cases ha : a = graph.blocks.size <;> by_cases hb : b = graph.blocks.size <;> simp_all

theorem linked_splitEdge {src target : Nat} (hsplit : SplitsInto graph src target result)
    (hedge : target ∈ graph.successors src) : result.Linked := by
  refine ⟨fun b block hblock => ?_, hsplit.mirrored hlinked.mirrored hedge⟩
  rcases hsplit.cases hblock with ⟨old, hold, rfl⟩ | ⟨rfl, rfl⟩
  · have hindex : old.index = b := hlinked.indexed hold
    exact hindex
  · rfl

theorem linked_removeUnreachable {removed : Nat}
    (hremove : graph.removeUnreachable = .ok (result, removed)) : result.Linked := by
  rcases Nat.eq_zero_or_pos graph.size with hsize | hsize
  · have hpost : graph.postorder = .ok [] := by
      rw [postorder, reversePostorder, if_pos hsize]
      rfl
    rw [removeUnreachable_eq_self hpost (by simp [hsize])] at hremove
    cases hremove
    exact hlinked
  · obtain ⟨order, -, hprunes⟩ := exists_prunes hlinked.indexed hlinked.mirrored hsize hremove
    exact ⟨hprunes.indexed hlinked.indexed, hprunes.mirrored hlinked.mirrored⟩

theorem linked_analyze (hanalyze : analyze graph = .ok result) : result.Linked := by
  rcases Nat.eq_zero_or_pos graph.size with hsize | hsize
  · obtain ⟨idoms, -, hrest⟩ := of_bind hanalyze
    cases hrest
    refine linked_of_size_eq_zero ?_
    simp only [Graph.size] at hsize
    simp [Graph.size, hsize]
  · obtain ⟨annotated, hannot, hsame, -⟩ :=
      exists_analyze hlinked.mirrored hlinked.indexed hsize
    rw [hannot] at hanalyze
    cases hanalyze
    exact hsame.toSameEdges.linked hlinked

end

/-! ## Passes -/

theorem sameEdges_construct (hbuild : construct graph = .ok result) : SameEdges graph result := by
  obtain ⟨vars, hvars, -⟩ := of_bind hbuild
  exact ((construct_rewrites (anyOperand vars _) (of_liftM_eq_ok hvars) hbuild).2 (.refl _)
    (OperandRule.obeyed_anyOperand vars _ graph)).edges

theorem sameEdges_renameRegisters (hrename : graph.renameRegisters = .ok result) :
    SameEdges graph result := by
  obtain ⟨vars, hvars, -⟩ := of_bind hrename
  exact ((renameRegisters_rewrites (anyOperand vars _) hvars hrename).2 (.refl _)
    (OperandRule.obeyed_anyOperand vars _ graph)).edges

theorem stepKept_linked : StepKept Linked where
  mirrored := Linked.mirrored
  split hlinked hsplit hedge _ := linked_splitEdge hlinked hsplit hedge
  lower hlinked hlower _ _ := hlower.sameEdges.linked hlinked

theorem linked_deconstruct {splits : Nat} (hlinked : graph.Linked)
    (hdecon : deconstruct graph = .ok (result, splits)) :
    result.Linked ∧ graph.size ≤ result.size := by
  obtain ⟨hresult, hinh, -⟩ :=
    keeps_lowerBlocks stepKept_linked hlinked (Nat.le_refl _) hdecon
  exact ⟨hresult, hinh.size⟩

/-! ## Histories of a graph -/

/-- What can be done to a graph. -/
inductive Edit where
  | addBlock
  | addEdge (src target : Nat)
  | splitEdge (src target : Nat)
  | removeUnreachable
  | analyze
  | construct
  | renameRegisters
  | deconstruct

/-- An edge is split only where there is one. -/
def Edit.Fits (graph : Graph) : Edit → Prop
  | .splitEdge src target => target ∈ graph.successors src
  | _ => True

def Edit.apply (graph : Graph) : Edit → Outcome Graph
  | .addBlock => .ok graph.addBlock
  | .addEdge src target => liftM (graph.addEdge src target)
  | .splitEdge src target => liftM (graph.splitEdge src target)
  | .removeUnreachable => liftM (Prod.fst <$> graph.removeUnreachable)
  | .analyze => liftM (Dominance.analyze graph)
  | .construct => SSA.construct graph
  | .renameRegisters => liftM graph.renameRegisters
  | .deconstruct => graph.withoutPhis

/-- Graphs that come from nothing or from a text by edits. -/
inductive Graph.Edited : Graph → Prop
  | empty : Edited {}
  | parsed {text : String} {graph : Graph} (hparse : Graph.parse text = .ok graph) : Edited graph
  | edit {graph result : Graph} (edit : Edit) (hgraph : Edited graph) (hfits : edit.Fits graph)
      (happly : edit.apply graph = .ok result) : Edited result

theorem linked_apply {edit : Edit} (hlinked : graph.Linked) (hfits : edit.Fits graph)
    (happly : edit.apply graph = .ok result) : result.Linked := by
  cases edit with
  | addBlock =>
    cases happly
    exact linked_addBlock hlinked
  | addEdge src target =>
    have hadd := liftM_eq_ok happly
    exact ⟨indexed_addEdge hadd hlinked.indexed, mirrored_addEdge hadd hlinked.mirrored⟩
  | splitEdge src target =>
    have hback := hlinked.mirrored.mem_iff.mp hfits
    obtain ⟨other, hother, hsplit⟩ := exists_splitEdge (source_lt_size hfits) (target_lt_size hback)
    have hresult := liftM_eq_ok happly
    rw [hother] at hresult
    cases hresult
    exact linked_splitEdge hlinked hsplit hfits
  | removeUnreachable =>
    obtain ⟨⟨other, removed⟩, hremove, rfl⟩ := map_eq_ok.mp (liftM_eq_ok happly)
    exact linked_removeUnreachable hlinked hremove
  | analyze => exact linked_analyze hlinked (liftM_eq_ok happly)
  | construct => exact (sameEdges_construct happly).linked hlinked
  | renameRegisters => exact (sameEdges_renameRegisters (of_liftM_eq_ok happly)).linked hlinked
  | deconstruct =>
    obtain ⟨⟨other, splits⟩, hdecon, hresult⟩ := of_bind happly
    cases hresult
    exact (linked_deconstruct hlinked (liftM_eq_ok hdecon)).1

theorem Graph.Edited.linked (hedited : graph.Edited) : graph.Linked := by
  induction hedited with
  | empty => exact linked_of_size_eq_zero rfl
  | parsed hparse => exact linked_of_parse hparse
  | edit edit _ hfits happly ih => exact linked_apply ih hfits happly

/-- The graph after an edit, or as it was if the edit is refused. -/
def Graph.after (graph : Graph) (edit : Edit) : Graph := (edit.apply graph).toOption.getD graph

theorem Graph.Edited.after (hedited : graph.Edited) (edit : Edit) (hfits : edit.Fits graph) :
    (graph.after edit).Edited := by
  cases happly : edit.apply graph with
  | error failure => rwa [Graph.after, happly]
  | ok result =>
    rw [Graph.after, happly]
    exact .edit edit hedited hfits happly

/-- The two lists of edges of an edited graph are mirror images. -/
theorem edited_mirrored (hedited : graph.Edited) :
    (∀ (b : Nat) (block : Block), graph.blocks[b]? = some block → block.index = b) ∧
      (∀ a, ∀ b ∈ graph.successors a, b < graph.size) ∧
      (∀ b, ∀ a ∈ graph.predecessors b, a < graph.size) ∧
      ∀ a b, (graph.successors a).count b = (graph.predecessors b).count a := by
  have hlinked := hedited.linked
  refine ⟨fun b block hblock => hlinked.indexed hblock, fun a b hb => ?_, fun b a ha => ?_,
    hlinked.mirrored⟩
  · exact hlinked.mirrored.lt_size_of_successor hb
  · exact hlinked.mirrored.lt_size_of_predecessor ha

/-- A loop without its phis, with one more block behind its exit. -/
def extendedLoop : Graph :=
  (((analyzedLoop.after .construct).after .deconstruct).after .addBlock).after (.addEdge 2 4)

theorem edited_mirrored_loop :
    extendedLoop.predecessors 1 = [0, 3] ∧ extendedLoop.successors 2 = [4] ∧
      (extendedLoop.after (.splitEdge 2 4)).Edited ∧
      ((extendedLoop.after (.splitEdge 2 4)).successors 2).count 5 =
        ((extendedLoop.after (.splitEdge 2 4)).predecessors 5).count 2 := by
  have hloop : loopGraph.Edited := .parsed parse_loopText
  have hanalyze : (loopGraph.after .removeUnreachable).after .analyze = analyzedLoop := by cbv
  have hanalyzed : analyzedLoop.Edited :=
    hanalyze ▸ (hloop.after .removeUnreachable trivial).after .analyze trivial
  have hlowered := (hanalyzed.after .construct trivial).after .deconstruct trivial
  have hextended : extendedLoop.Edited :=
    (hlowered.after .addBlock trivial).after (.addEdge 2 4) trivial
  have hsplit : (extendedLoop.after (.splitEdge 2 4)).Edited :=
    hextended.after _ (by decide +kernel : 4 ∈ extendedLoop.successors 2)
  exact ⟨by decide +kernel, by decide +kernel, hsplit, (edited_mirrored hsplit).2.2.2 2 5⟩

/-- A loop that an unreachable block leads to as well. -/
def deadJoin : Graph where
  blocks := #[
    { index := 0, operations := [.branch], successors := [1] },
    { index := 1, operations := [.copy (.guest 0) (.constant 1 .i64), .branch]
      successors := [1], predecessors := [0, 1, 2], immediateDominator := some 0, frontier := [1] },
    { index := 2, operations := [.branch], successors := [1] }]

/-- Only blocks of the dominator tree feed phi inputs, so the input from the unreachable block
keeps its register, also when construction is run again. -/
theorem construct_deadJoin_keeps_register :
    Dominance.analyze deadJoin = .ok deadJoin ∧
      SSA.construct deadJoin = .ok (deadJoin.after .construct) ∧
      SSA.construct (deadJoin.after .construct) = .ok (deadJoin.after .construct) ∧
      .guest 0 ∈
        (deadJoin.after .construct).operations.flatMap Operation.sources := by
  refine ⟨by cbv, by decide +kernel, by decide +kernel, by decide +kernel⟩

/-- A register that is written at four bytes and read at eight. -/
def widened : Graph where
  blocks := #[{ index := 0, operations :=
    [.copy (.register ⟨.integer, 0⟩ .i32) (.constant 5 .i32),
      .ret (.guest 0)] }]

/-- Renaming keeps the type of each access, but a local has one type in program text. So the
parser refuses the text of the graph that an observer sees. -/
theorem parse_text_observed_refused :
    Graph.parse "block 0\n  r0:i32 = copy 5:i32\n  ret r0:i64" = .ok widened ∧
      widened.prepare ⟨[], some .i64⟩ = .ok widened ∧ Dominance.analyze widened = .ok widened ∧
      .finish .registerToLocal (some (widened.after .renameRegisters)) ∈
        (widened.intoLocals { ssa := false }).events ∧
      Graph.parse (widened.after .renameRegisters).text = .error ⟨3, .conflictingLocal 0⟩ := by
  refine ⟨by decide +kernel, by cbv, by cbv, by decide +kernel, by decide +kernel⟩

end GraphJit
