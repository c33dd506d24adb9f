import GraphJit.IR.Graph
import Mathlib.Data.List.Count

/-! # Edges seen from both ends

Blocks list their successors and their predecessors. The two lists mirror each
other if every edge is counted as often at its target as at its source; then no
edge leaves the graph.
-/

namespace GraphJit

/-- A 64-bit integer register of the guest. -/
def Operand.guest (index : Nat) : Operand := .register ⟨.integer, index⟩ .i64

namespace Graph

/-- A graph with other operations in its blocks, and other locals. -/
def rewritten (graph : Graph) (operations : List (List Operation)) (locals : LocalTable) :
    Graph where
  blocks := graph.blocks.mapIdx fun b block => { block with operations := operations[b]?.getD [] }
  locals

variable {graph : Graph} {b a : Nat} {block : Block}

theorem lt_size (hblock : graph.blocks[b]? = some block) : b < graph.size :=
  (Array.getElem?_eq_some_iff.mp hblock).1

theorem exists_block (hb : b < graph.size) : ∃ block, graph.blocks[b]? = some block :=
  ⟨_, Array.getElem?_eq_getElem hb⟩

theorem block_eq_ok (hblock : graph.blocks[b]? = some block) : graph.block b = .ok block := by
  simp only [Graph.block, hblock]

theorem modify_eq_ok (change : Block → Block) (hb : b < graph.size) :
    graph.modify b change = .ok { graph with blocks := graph.blocks.modify b change } :=
  if_pos hb

theorem successors_eq (hblock : graph.blocks[b]? = some block) :
    graph.successors b = block.successors := by
  simp only [successors, hblock]

theorem predecessors_eq (hblock : graph.blocks[b]? = some block) :
    graph.predecessors b = block.predecessors := by
  simp only [predecessors, hblock]

theorem source_lt_size (hedge : b ∈ graph.successors a) : a < graph.size := by
  unfold successors at hedge
  split at hedge
  next block hblock => exact lt_size hblock
  next => simp at hedge

theorem target_lt_size (hedge : a ∈ graph.predecessors b) : b < graph.size := by
  unfold predecessors at hedge
  split at hedge
  next block hblock => exact lt_size hblock
  next => simp at hedge

/-- Every block carries its position. -/
def Indexed (graph : Graph) : Prop :=
  ∀ ⦃b : Nat⦄ ⦃block : Block⦄, graph.blocks[b]? = some block → block.index = b

theorem mem_blocks_iff :
    block ∈ graph.blocks.toList ↔ ∃ b : Nat, graph.blocks[b]? = some block := by
  rw [List.mem_iff_getElem?]
  simp only [Array.getElem?_toList]

theorem Indexed.indices (hidx : graph.Indexed) :
    graph.blocks.toList.map (·.index) = List.range graph.size := by
  refine List.ext_getElem? fun b => ?_
  rw [List.getElem?_map, Array.getElem?_toList]
  cases hblock : graph.blocks[b]? with
  | none =>
    have hb : graph.size ≤ b := by simpa [Graph.size] using hblock
    simp [hb]
  | some block =>
    have hindex : block.index = b := hidx hblock
    simp [hindex, lt_size hblock]

/-- Every edge is counted as often at its target as at its source. -/
def Mirrored (graph : Graph) : Prop :=
  ∀ a b, (graph.successors a).count b = (graph.predecessors b).count a

namespace Mirrored

variable {a b : Nat}

variable (hmirror : graph.Mirrored)
include hmirror

theorem mem_iff : b ∈ graph.successors a ↔ a ∈ graph.predecessors b := by
  rw [← List.count_pos_iff, ← List.count_pos_iff, hmirror a b]

theorem lt_size_of_successor (hedge : b ∈ graph.successors a) : b < graph.size :=
  target_lt_size (hmirror.mem_iff.mp hedge)

theorem lt_size_of_predecessor (hedge : a ∈ graph.predecessors b) : a < graph.size :=
  source_lt_size (hmirror.mem_iff.mpr hedge)

end Mirrored

end Graph

end GraphJit
