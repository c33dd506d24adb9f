import GraphJit.Proofs.PhiPlacement
import GraphJit.SSA.Rename

/-! # Graphs over another table of locals

A pass that needs a local takes the next number of the table, so the numbers it gives depend
on how many locals the table has already. A rebasing puts a graph over another table: the
locals of the table so far get other numbers of the new table, and those that are made later
follow in their order. The order of blocks, dominators, and the places of phis do not depend
on the numbers of locals.
-/

namespace GraphJit

open List

structure Rebasing where
  /-- How many locals there are so far. -/
  floor : Nat
  /-- The table to put a graph over. -/
  base : LocalTable
  /-- The new numbers of the locals so far. -/
  old : Nat → Nat
  old_lt : ∀ id < floor, old id < base.count

namespace Rebasing

variable (r : Rebasing)

/-- The new number of a local. -/
def number (id : Nat) : Nat := if id < r.floor then r.old id else r.base.count + (id - r.floor)

theorem number_of_floor_le {id : Nat} (hid : r.floor ≤ id) :
    r.number id = r.base.count + (id - r.floor) :=
  if_neg (Nat.not_lt.mpr hid)

/-- The locals so far stay apart from those made later. -/
theorem number_eq_iff {id fresh : Nat} (hfresh : r.floor ≤ fresh) :
    r.number id = r.number fresh ↔ id = fresh := by
  rw [r.number_of_floor_le hfresh]
  unfold number
  split
  next hid =>
    have hlt := r.old_lt id hid
    omega
  next => omega

def table (table : LocalTable) : LocalTable :=
  ⟨(r.base.types.toList ++ table.types.toList.drop r.floor).toArray⟩

theorem count_table (table : LocalTable) :
    (r.table table).count = r.base.count + (table.count - r.floor) := by
  simp [Rebasing.table, LocalTable.count]

def operand : Operand → Operand
  | .localVar id type => .localVar (r.number id) type
  | opnd => opnd

def operation (op : Operation) : Operation :=
  { op with
    destination := op.destination.map r.operand
    sources := op.sources.map r.operand }

def block (block : Block) : Block :=
  { block with operations := block.operations.map r.operation }

def graph (graph : Graph) : Graph where
  blocks := graph.blocks.map r.block
  locals := r.table graph.locals

/-! ## What stays -/

variable (opnd : Operand) (op : Operation) (block : Block) (graph : Graph)

@[simp] theorem type_operand : (r.operand opnd).type = opnd.type := by
  cases opnd <;> rfl

@[simp] theorem register?_operand : (r.operand opnd).register? = opnd.register? := by
  cases opnd <;> rfl

@[simp] theorem bits?_operand : (r.operand opnd).bits? = opnd.bits? := by
  cases opnd <;> rfl

@[simp] theorem imm?_operand : (r.operand opnd).immediate? = opnd.immediate? := by
  cases opnd <;> rfl

@[simp] theorem localId?_operand : (r.operand opnd).localId? = opnd.localId?.map r.number := by
  cases opnd <;> rfl

@[simp] theorem instruction_operation : (r.operation op).instruction = op.instruction := rfl

@[simp] theorem labels_operation : (r.operation op).labels = op.labels := rfl

@[simp] theorem sources_operation : (r.operation op).sources = op.sources.map r.operand := rfl

@[simp] theorem destination_operation :
    (r.operation op).destination = op.destination.map r.operand := rfl

@[simp] theorem isPhi_operation : (r.operation op).isPhi = op.isPhi := rfl

@[simp] theorem operands_operation : (r.operation op).operands = op.operands.map r.operand := by
  cases hdest : op.destination <;> simp [Operation.operands, hdest]

theorem inputs_operation :
    (r.operation op).inputs = op.inputs.map fun input => (input.1, r.operand input.2) := by
  simp [Operation.inputs, zip_map_right, Prod.map]

@[simp] theorem operation_copy (src : Operand) :
    r.operation (.copy opnd src) = .copy (r.operand opnd) (r.operand src) := rfl

@[simp] theorem operation_branch : r.operation .branch = .branch := rfl

@[simp] theorem index_block : (r.block block).index = block.index := rfl

@[simp] theorem successors_block : (r.block block).successors = block.successors := rfl

@[simp] theorem predecessors_block : (r.block block).predecessors = block.predecessors := rfl

@[simp] theorem operations_block :
    (r.block block).operations = block.operations.map r.operation := rfl

@[simp] theorem terminator?_block :
    (r.block block).terminator? = block.terminator?.map r.operation := by
  simp only [Block.terminator?, operations_block, getLast?_map]
  cases block.operations.getLast? with
  | none => rfl
  | some op => by_cases hterm : op.instruction.isTerminator <;> simp [Option.filter_some, hterm]

@[simp] theorem insertionPoint_block : (r.block block).insertionPoint = block.insertionPoint := by
  simp [Block.insertionPoint]

@[simp] theorem argumentLoads_block :
    (r.block block).argumentLoads = block.argumentLoads.map r.operation := by
  simp only [Block.argumentLoads, operations_block, takeWhile_map]
  rfl

@[simp] theorem hasPhi_block : (r.block block).hasPhi = block.hasPhi := by
  simp only [Block.hasPhi, operations_block, any_map]
  rfl

@[simp] theorem blocks_graph : (r.graph graph).blocks = graph.blocks.map r.block := rfl

@[simp] theorem locals_graph : (r.graph graph).locals = r.table graph.locals := rfl

@[simp] theorem size_graph : (r.graph graph).size = graph.size := Array.size_map

@[simp] theorem successors_graph : (r.graph graph).successors = graph.successors := by
  funext b
  unfold Graph.successors
  rw [blocks_graph, Array.getElem?_map]
  cases graph.blocks[b]? <;> rfl

@[simp] theorem predecessors_graph : (r.graph graph).predecessors = graph.predecessors := by
  funext b
  unfold Graph.predecessors
  rw [blocks_graph, Array.getElem?_map]
  cases graph.blocks[b]? <;> rfl

theorem operations_graph : (r.graph graph).operations = graph.operations.map r.operation := by
  simp [Graph.operations, flatMap_map, map_flatMap]

theorem operands_graph : (r.graph graph).operations.flatMap Operation.operands =
    (graph.operations.flatMap Operation.operands).map r.operand := by
  simp [operations_graph, flatMap_map, map_flatMap]

/-! ## Dominance -/

open Dominance

theorem walk_graph (visited : Array Bool) (order : List Nat) (stack : List (Nat × List Nat)) :
    (r.graph graph).walk visited order stack = graph.walk visited order stack := by
  fun_induction Graph.walk graph visited order stack with
  | case1 => rw [Graph.walk]
  | case2 _ _ _ _ ih => rw [Graph.walk, ih]
  | case3 _ _ _ _ _ _ hbound hvis ih =>
    rw [Graph.walk, dif_pos hbound, if_pos hvis, ih]
  | case4 _ _ _ _ _ _ hbound hvis ih =>
    rw [Graph.walk, dif_pos hbound, if_neg hvis, successors_graph, ih]
  | case5 _ _ _ _ _ _ hbound => rw [Graph.walk, dif_neg hbound]

theorem refine_graph (ranks : Array Nat) (blocks : List Nat) (fuel : Nat) (idoms : Idoms) :
    refine (r.graph graph) ranks blocks fuel idoms = refine graph ranks blocks fuel idoms := by
  have hblock : refineBlock (r.graph graph) ranks = refineBlock graph ranks := by
    funext state b
    unfold refineBlock
    rw [predecessors_graph]
  induction fuel generalizing idoms with
  | zero => rfl
  | succ fuel ih =>
    unfold refine
    rw [hblock]
    simp only [ih]

theorem idoms_graph : idoms (r.graph graph) = idoms graph := by
  unfold idoms Graph.reversePostorder
  simp only [size_graph, successors_graph, walk_graph, refine_graph]

theorem frontiers_graph (idoms : Idoms) :
    frontiers (r.graph graph) idoms = frontiers graph idoms := by
  simp only [frontiers, blocks_graph, Array.toList_map, map_map, size_graph]
  rfl

theorem analyze_graph : analyze (r.graph graph) = (analyze graph).map r.graph := by
  unfold analyze
  rw [idoms_graph]
  cases idoms graph with
  | error cause => rfl
  | ok idoms =>
    change Except.ok _ = Except.ok _
    simp only [frontiers_graph, blocks_graph, Array.toList_map, zipWith_map_left]
    simp only [Rebasing.graph, map_toArray, map_zipWith]
    rfl

theorem ofGraph_graph : DominatorTree.ofGraph (r.graph graph) = .ofGraph graph := by
  have hchildren : DominatorTree.childrenOf (graph.blocks.toList.map r.block) =
      DominatorTree.childrenOf graph.blocks.toList := by
    funext b
    simp only [DominatorTree.childrenOf, filter_map, map_map]
    rfl
  simp only [DominatorTree.ofGraph, blocks_graph, Array.toList_map, hchildren,
    size_graph, Array.map_map]
  rfl

/-! ## Variables and phis -/

theorem noteOperand_operand (vars : List GuestVariable) :
    GuestVariable.noteOperand vars (r.operand opnd) = GuestVariable.noteOperand vars opnd := by
  cases opnd <;> rfl

theorem collect_graph : GuestVariable.collect (r.graph graph) = GuestVariable.collect graph := by
  rw [GuestVariable.collect, operands_graph, foldlM_map]
  simp only [noteOperand_operand]
  rfl

open SSA

theorem definingBlocks_graph (tree : DominatorTree) (reg : GuestRegister) :
    definingBlocks (r.graph graph) tree reg = definingBlocks graph tree reg := by
  have hdefs : ((fun op => op.destination.bind Operand.register? == some reg) ∘
      r.operation) = fun op => op.destination.bind Operand.register? == some reg := by
    funext op
    simp [Option.bind_map]
  simp only [definingBlocks, blocks_graph, Array.toList_map, filter_map, map_map,
    Function.comp_def, index_block, operations_block, any_map]
  rw [← hdefs]
  rfl

theorem phiBlocks_graph (tree : DominatorTree) (reg : GuestRegister) :
    phiBlocks (r.graph graph) tree reg = phiBlocks graph tree reg := by
  have hfront : frontierOf (r.graph graph) = frontierOf graph := by
    funext b
    unfold frontierOf
    rw [blocks_graph, Array.getElem?_map]
    cases graph.blocks[b]? <;> rfl
  simp only [phiBlocks, hfront, definingBlocks_graph, size_graph]

/-- A change of one block that commutes with the rebasing. -/
theorem modify_map {change change' : Block → Block}
    (hchange : ∀ block, change' (r.block block) = r.block (change block)) (blocks : Array Block)
    (b : Nat) : (blocks.map r.block).modify b change' = (blocks.modify b change).map r.block := by
  apply Array.ext_getElem?
  intro q
  rw [Array.getElem?_modify, Array.getElem?_map, Array.getElem?_map, Array.getElem?_modify]
  split
  next => cases blocks[q]? <;> simp [hchange]
  next => rfl

theorem placePhis_graph (tree : DominatorTree) (var : GuestVariable) :
    placePhis tree (r.graph graph) var = r.graph (placePhis tree graph var) := by
  have hinsert (block : Block) :
      { r.block block with
        operations := emptyPhi var (r.block block).predecessors :: (r.block block).operations } =
      r.block { block with operations := emptyPhi var block.predecessors :: block.operations } := by
    simp [Rebasing.block, Rebasing.operation, emptyPhi, Operation.phi, Rebasing.operand]
  simp only [placePhis, phiBlocks_graph]
  generalize phiBlocks graph tree var.register = places
  simp only [Rebasing.graph]
  refine congrArg (Graph.mk · _) ?_
  induction places generalizing graph with
  | nil => rfl
  | cons b rest ih =>
    rw [foldl_cons, foldl_cons, r.modify_map hinsert]
    exact ih { graph with blocks := _ }

theorem insertPhis_graph (vars : List GuestVariable) (tree : DominatorTree) :
    (insertPhis (r.graph graph) vars tree).1 = r.graph (insertPhis graph vars tree).1 := by
  rw [insertPhis_fst, insertPhis_fst]
  induction vars generalizing graph with
  | nil => rfl
  | cons var rest ih => rw [foldl_cons, foldl_cons, placePhis_graph, ih]

/-! ## States of a renaming -/

/-- A table of so many locals, and the rebased one, can be numbered by words. -/
def Room (count : Nat) : Prop := r.base.count + count ≤ twoPow 32

theorem fresh_table {table : LocalTable} (type : ValueType) (hfloor : r.floor ≤ table.count)
    (hroom : r.Room (table.count + 1)) :
    (r.table table).fresh type = (r.number (table.fresh type).1, r.table (table.fresh type).2) := by
  have hword : table.count < twoPow 32 ∧ r.base.count + (table.count - r.floor) < twoPow 32 := by
    unfold Room at hroom
    omega
  refine Prod.ext ?_ ?_
  · simp only [LocalTable.fresh, count_table]
    rw [Nat.mod_eq_of_lt hword.1, Nat.mod_eq_of_lt hword.2, r.number_of_floor_le hfloor]
  · have hdrop : (table.types.toList ++ [some type]).drop r.floor =
        table.types.toList.drop r.floor ++ [some type] :=
      drop_append_of_le_length hfloor
    simp [LocalTable.fresh, Rebasing.table, hdrop]

theorem count_fresh (table : LocalTable) (type : ValueType) :
    (table.fresh type).2.count = table.count + 1 :=
  Array.size_push _

theorem block_graph (b : Nat) : (r.graph graph).block b = (graph.block b).map r.block := by
  unfold Graph.block
  rw [blocks_graph, Array.getElem?_map]
  cases graph.blocks[b]? <;> rfl

variable {change change' : Block → Block}

theorem modify_graph (hchange : ∀ block, change' (r.block block) = r.block (change block))
    (graph : Graph) (b : Nat) :
    (r.graph graph).modify b change' = (graph.modify b change).map r.graph := by
  unfold Graph.modify
  rw [size_graph]
  split
  · refine congrArg Except.ok ?_
    simp only [Rebasing.graph]
    exact congrArg (Graph.mk · _) (r.modify_map hchange graph.blocks b)
  · rfl

variable {graph} in
theorem modify_graph_eq_ok (hchange : ∀ block, change' (r.block block) = r.block (change block))
    {b : Nat} {result : Graph} (hmodify : graph.modify b change = .ok result) :
    (r.graph graph).modify b change' = .ok (r.graph result) := by
  rw [r.modify_graph hchange, hmodify]
  rfl

def scope (scope : Scope) : Scope := scope.map fun entry => (entry.1, r.number entry.2)

theorem lookup_scope (scope : Scope) (reg : GuestRegister) :
    (r.scope scope).lookup reg = (scope.lookup reg).map r.number := by
  induction scope with
  | nil => rfl
  | cons entry rest ih =>
    change ((entry.1, r.number entry.2) :: r.scope rest).lookup reg = _
    rw [List.lookup_cons, List.lookup_cons, ih]
    split <;> rfl

def state (state : Renaming) : Renaming where
  graph := r.graph state.graph
  zeros := r.scope state.zeros
  scopes := state.scopes.map r.scope

theorem setIfInBounds_map (scopes : Array Scope) (b : Nat) (scope : Scope) :
    (scopes.map r.scope).setIfInBounds b (r.scope scope) =
      (scopes.setIfInBounds b scope).map r.scope := by
  apply Array.ext_getElem?
  intro c
  simp only [Array.getElem?_setIfInBounds, Array.getElem?_map, Array.size_map]
  split
  · split <;> rfl
  · rfl

end Rebasing

end GraphJit
