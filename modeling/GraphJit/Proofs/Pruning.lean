import GraphJit.IR.Prune
import GraphJit.Proofs.DepthFirst
import GraphJit.Proofs.Results
import Mathlib.Data.List.ReduceOption

/-! # The reachable part of a graph

Dropping the unreachable blocks renumbers the others without a gap and in their
order. Edges between them are kept, so the result is the reachable part of the
graph, and every block of it is reachable.
-/

namespace GraphJit.Graph

open List

variable {graph result : Graph} {order : List Nat}

/-! ## New numbers -/

theorem getElem?_renumber (next : Nat) (flags : List Bool) (b : Nat) : (renumber next flags)[b]? =
      flags[b]?.map fun kept => if kept then some (next + (flags.take b).count true) else none := by
  induction flags generalizing next b with
  | nil => rfl
  | cons flag rest ih =>
    cases flag with
    | true =>
      cases b with
      | zero => simp [renumber]
      | succ b =>
        simp only [renumber, getElem?_cons_succ, ih, take_succ_cons, count_cons_self]
        congr 1
        funext kept
        split
        next => rw [Nat.add_assoc, Nat.add_comm 1]
        next => rfl
    | false =>
      cases b with
      | zero => simp [renumber]
      | succ b => simp [renumber, ih]

/-- How many blocks of an order come before a block. -/
def rankIn (order : List Nat) (b : Nat) : Nat := (List.range b).countP (· ∈ order)

variable {α β : Type} {b a i : Nat} {blocks : List Nat} {op : Operation} {block : Block}
  {choose : α → Option β} {items : List α} {c : β}

theorem rankIn_lt (ha : a ∈ order) (hlt : a < b) : rankIn order a < rankIn order b := by
  have hnext : rankIn order (a + 1) = rankIn order a + 1 := by
    simp [rankIn, range_succ, ha]
  have hmono : rankIn order (a + 1) ≤ rankIn order b := (range_sublist.mpr hlt).countP_le
  omega

theorem rankIn_injOn (ha : a ∈ order) (hb : b ∈ order) (heq : rankIn order a = rankIn order b) :
    a = b := by
  rcases Nat.lt_trichotomy a b with hlt | rfl | hlt
  · exact absurd heq (Nat.ne_of_lt (rankIn_lt ha hlt))
  · rfl
  · exact absurd heq.symm (Nat.ne_of_lt (rankIn_lt hb hlt))

/-- The marks of an order as a list. -/
theorem marks_toList (graph : Graph) (order : List Nat) :
    (graph.marks order).toList = (List.range graph.size).map fun b => decide (b ∈ order) := by
  have hsize : (graph.marks order).size = graph.size :=
    (size_foldl (fun _ _ => Array.size_setIfInBounds) ..).trans Array.size_replicate
  refine ext_getElem? fun b => ?_
  rw [Array.getElem?_toList, getElem?_map]
  rcases Nat.lt_or_ge b graph.size with hb | hb
  · rw [marks, getElem?_foldl_marks _ _ (by simpa using hb)]
    by_cases hmem : b ∈ order <;> simp [hmem, hb]
  · rw [Array.getElem?_eq_none (by omega), getElem?_eq_none (by simpa using hb)]
    rfl

/-- The table of new numbers. -/
def numbersOf (graph : Graph) (order : List Nat) : Array (Option Nat) :=
  (renumber 0 (graph.marks order).toList).toArray

theorem newIndex_eq (hb : b < graph.size) : newIndex (graph.numbersOf order) b =
      .ok (if b ∈ order then some (rankIn order b) else none) := by
  have htake : ((graph.marks order).toList.take b).count true = rankIn order b := by
    rw [marks_toList, ← map_take, take_range, Nat.min_eq_left (Nat.le_of_lt hb),
      count_eq_countP, countP_map, rankIn]
    congr 1
    funext c
    simp
  have hget : (graph.numbersOf order)[b]? =
      some (if b ∈ order then some (rankIn order b) else none) := by
    rw [numbersOf, getElem?_toArray, getElem?_renumber, htake, marks_toList,
      getElem?_map, getElem?_range hb]
    simp
  rw [newIndex, hget]

theorem newIndex_eq_error (hb : graph.size ≤ b) :
    newIndex (graph.numbersOf order) b = .error .indexOutOfRange := by
  have hget : (graph.numbersOf order)[b]? = none := by
    rw [numbersOf, getElem?_toArray, getElem?_renumber, marks_toList, getElem?_map,
      getElem?_eq_none (by simpa using hb)]
    rfl
  rw [newIndex, hget]

/-! ## Kept blocks -/

theorem map_reduceOption (choose : α → Option β) (items : List α) :
    (items.map choose).reduceOption = items.filterMap choose := by
  rw [List.reduceOption, filterMap_map]
  rfl

/-- The new number of a block that is kept. -/
def kept? (order : List Nat) (b : Nat) : Option Nat :=
  if b ∈ order then some (rankIn order b) else none

theorem keepBlocks_eq (hblocks : ∀ b ∈ blocks, b < graph.size) :
    keepBlocks (graph.numbersOf order) blocks = .ok (blocks.filterMap (kept? order)) := by
  rw [keepBlocks, mapM_eq_ok (kept? order) fun b hb => newIndex_eq (hblocks b hb)]
  change Except.ok _ = _
  rw [map_reduceOption]

/-- The inputs of a phi that come from kept blocks, under their new numbers. -/
def keptInputs (order : List Nat) (op : Operation) : List (Nat × Operand) :=
  op.inputs.filterMap fun input => (kept? order input.1).map fun label => (label, input.2)

def keepOperation (order : List Nat) (op : Operation) : Operation := if op.isPhi then
    { op with
      labels := (keptInputs order op).map Prod.fst
      sources := (keptInputs order op).map Prod.snd }
  else op

/-- The labels that a phi has an input for are blocks. -/
def LabelsIn (size : Nat) (op : Operation) : Prop := op.isPhi → ∀ input ∈ op.inputs, input.1 < size

theorem keepInputs_eq (hlabels : LabelsIn graph.size op) :
    keepInputs (graph.numbersOf order) op = .ok (keepOperation order op) := by
  unfold keepInputs keepOperation
  split
  next hphi =>
    have hinput : ∀ input ∈ op.inputs, (do
        return (← newIndex (graph.numbersOf order) input.1).map fun label => (label, input.2)) =
        (.ok ((kept? order input.1).map fun label => (label, input.2)) :
          Except Fault (Option (Nat × Operand))) := fun input hmem => by
      rw [newIndex_eq (hlabels hphi input hmem)]
      rfl
    rw [mapM_eq_ok _ hinput]
    change Except.ok _ = _
    rw [map_reduceOption]
    rfl
  next => rfl

/-- A kept block under its new number. -/
def keepBlockIn (order : List Nat) (block : Block) : Block where
  index := rankIn order block.index
  operations := block.operations.map (keepOperation order)
  successors := block.successors.filterMap (kept? order)
  predecessors := block.predecessors.filterMap (kept? order)

theorem keepBlock_eq (hlabels : ∀ op ∈ block.operations, LabelsIn graph.size op)
    (hsuccs : ∀ b ∈ block.successors, b < graph.size)
    (hpreds : ∀ b ∈ block.predecessors, b < graph.size) :
    keepBlock (graph.numbersOf order) block (rankIn order block.index) =
      .ok (keepBlockIn order block) := by
  rw [keepBlock, mapM_eq_ok (keepOperation order) fun op hop => keepInputs_eq (hlabels op hop),
    keepBlocks_eq hsuccs, keepBlocks_eq hpreds]
  rfl

/-- A block and what is kept of it. -/
structure KeepsBlock (order : List Nat) (block new : Block) : Prop where
  index : new.index = rankIn order block.index
  successors : new.successors = block.successors.filterMap (kept? order)
  predecessors : new.predecessors = block.predecessors.filterMap (kept? order)
  operations : new.operations = block.operations ∨
    new.operations = block.operations.map (keepOperation order)

/-- The blocks of an order under their new numbers. -/
structure Prunes (graph : Graph) (order : List Nat) (result : Graph) : Prop where
  locals : result.locals = graph.locals
  mem_iff : ∀ {b}, b ∈ order ↔ graph.Reachable b
  kept : ∀ {b}, b ∈ order → ∃ block new, graph.blocks[b]? = some block ∧
    result.blocks[rankIn order b]? = some new ∧ KeepsBlock order block new
  onto : ∀ i < result.size, ∃ b ∈ order, rankIn order b = i

/-- The position of a kept item. -/
theorem getElem?_filterMap_take {a : α} (ha : items[b]? = some a) (hc : choose a = some c) :
    (items.filterMap choose)[((items.take b).filterMap choose).length]? = some c := by
  induction items generalizing b with
  | nil => simp at ha
  | cons first rest ih =>
    cases b with
    | zero =>
      obtain rfl : first = a := by simpa using ha
      simp [hc]
    | succ b =>
      rw [getElem?_cons_succ] at ha
      rw [take_succ_cons, filterMap_cons, filterMap_cons]
      cases choose first with
      | none => exact ih ha
      | some c' => simpa using ih ha

theorem exists_of_getElem?_filterMap (hc : (items.filterMap choose)[i]? = some c) :
    ∃ b a, items[b]? = some a ∧ choose a = some c ∧
      ((items.take b).filterMap choose).length = i := by
  induction items generalizing i with
  | nil => simp at hc
  | cons first rest ih =>
    cases hfirst : choose first with
    | none =>
      rw [filterMap_cons, hfirst] at hc
      obtain ⟨b, a, ha, hchoose, hlength⟩ := ih hc
      exact ⟨b + 1, a, by simpa using ha, hchoose, by simpa [hfirst] using hlength⟩
    | some c' =>
      rw [filterMap_cons, hfirst] at hc
      cases i with
      | zero =>
        obtain rfl : c' = c := by simpa using hc
        exact ⟨0, first, rfl, hfirst, rfl⟩
      | succ i =>
        obtain ⟨b, a, ha, hchoose, hlength⟩ := ih (by simpa using hc)
        exact ⟨b + 1, a, by simpa using ha, hchoose, by simpa [hfirst] using hlength⟩

/-- What is kept of a block, if it is kept. -/
def keepBlock? (order : List Nat) (block : Block) : Option Block :=
  if block.index ∈ order then some (keepBlockIn order block) else none

theorem length_filterMap_keepBlock? (hidx : graph.Indexed) (hb : b ≤ graph.size) :
    ((graph.blocks.toList.take b).filterMap (keepBlock? order)).length = rankIn order b := by
  have hindices : (graph.blocks.toList.take b).map (·.index) = List.range b := by
    rw [map_take, hidx.indices, take_range, Nat.min_eq_left hb]
  rw [length_filterMap_eq_countP, rankIn, ← hindices, countP_map]
  congr 1
  funext block
  by_cases hmem : block.index ∈ order <;> simp [keepBlock?, hmem]

/-- The blocks that are kept. -/
def keepIn (graph : Graph) (order : List Nat) : Graph :=
  { graph with blocks := (graph.blocks.toList.filterMap (keepBlock? order)).toArray }

theorem getElem?_keepIn (hidx : graph.Indexed) (hblock : graph.blocks[b]? = some block)
    (hb : b ∈ order) : (graph.keepIn order).blocks[rankIn order b]? =
      some (keepBlockIn order block) := by
  have hindex : block.index = b := hidx hblock
  have hkeep : keepBlock? order block = some (keepBlockIn order block) := by
    rw [keepBlock?, hindex, if_pos hb]
  rw [keepIn, getElem?_toArray, ← length_filterMap_keepBlock? hidx (Nat.le_of_lt (lt_size hblock))]
  exact getElem?_filterMap_take (by rwa [Array.getElem?_toList]) hkeep

/-- If all blocks are kept they keep their numbers. -/
theorem rankIn_eq_self (hall : ∀ c < b, c ∈ order) : rankIn order b = b := by
  rw [rankIn, countP_eq_length.mpr fun c hc => by simpa using hall c (mem_range.mp hc),
    length_range]

section

variable (hidx : graph.Indexed) (hmirror : graph.Mirrored) (hsize : 0 < graph.size)
include hidx hmirror hsize

theorem prunes_keepIn (horder : ∀ b, b ∈ order ↔ graph.Reachable b) :
    Prunes graph order (graph.keepIn order) := by
  refine ⟨rfl, horder _, fun {b} hb => ?_, fun i hi => ?_⟩
  · obtain ⟨block, hblock⟩ := exists_block (((horder b).mp hb).lt_size hmirror hsize)
    exact ⟨block, _, hblock, getElem?_keepIn hidx hblock hb, ⟨rfl, rfl, rfl, .inr rfl⟩⟩
  · obtain ⟨new, hnew⟩ := exists_block hi
    rw [keepIn, getElem?_toArray] at hnew
    obtain ⟨b, block, hblock, hkeep, hlength⟩ := exists_of_getElem?_filterMap hnew
    rw [Array.getElem?_toList] at hblock
    have hindex : block.index = b := hidx hblock
    have hb : b ∈ order := by
      by_contra hnot
      simp [keepBlock?, hindex, hnot] at hkeep
    exact ⟨b, hb, by
      rw [← hlength, length_filterMap_keepBlock? hidx (Nat.le_of_lt (lt_size hblock))]⟩

theorem prunes_self (horder : ∀ b, b ∈ order ↔ graph.Reachable b)
    (hall : ∀ b < graph.size, b ∈ order) : Prunes graph order graph := by
  have hself : ∀ b < graph.size, rankIn order b = b := fun b hb =>
    rankIn_eq_self fun c hc => hall c (Nat.lt_trans hc hb)
  have hkept : ∀ {blocks : List Nat}, (∀ b ∈ blocks, b < graph.size) →
      blocks = blocks.filterMap (kept? order) := by
    intro blocks hblocks
    induction blocks with
    | nil => rfl
    | cons b rest ih =>
      have hb := hblocks b mem_cons_self
      have hb' : kept? order b = some b := by
        rw [kept?, if_pos (hall b hb), hself b hb]
      rw [filterMap_cons, hb', ← ih fun c hc => hblocks c (.tail _ hc)]
  refine ⟨rfl, horder _, fun {b} hmem => ?_, fun i hi => ⟨i, hall i hi, hself i hi⟩⟩
  have hb := ((horder b).mp hmem).lt_size hmirror hsize
  obtain ⟨block, hblock⟩ := exists_block hb
  have hindex : block.index = b := hidx hblock
  refine ⟨block, block, hblock, by rwa [hself b hb], ⟨by rw [hindex, hself b hb], ?_, ?_, .inl rfl⟩⟩
  · exact hkept fun c hc => hmirror.lt_size_of_successor (successors_eq hblock ▸ hc)
  · exact hkept fun c hc => hmirror.lt_size_of_predecessor (predecessors_eq hblock ▸ hc)

end

/-! ## Dropping the rest -/

theorem exists_postorder (hsize : 0 < graph.size)
    (hrange : ∀ {a b}, graph.Edge a b → b < graph.size) :
    ∃ order, graph.postorder = .ok order ∧ ∀ b, b ∈ order ↔ graph.Reachable b := by
  obtain ⟨order, horder, hdepth⟩ := exists_reversePostorder hsize hrange
  refine ⟨order.reverse, ?_, fun b => mem_reverse.trans hdepth.mem_iff⟩
  rw [postorder, horder]
  rfl

theorem count_marks_eq_zero_iff :
    (graph.marks order).count false = 0 ↔ ∀ b < graph.size, b ∈ order := by
  rw [← Array.count_toList, marks_toList, count_eq_zero]
  simp

theorem removeUnreachable_eq_self (hpost : graph.postorder = .ok order)
    (hall : ∀ b < graph.size, b ∈ order) : graph.removeUnreachable = .ok (graph, 0) := by
  rw [removeUnreachable, hpost]
  change (if (graph.marks order).count false = 0 then _ else _) = _
  rw [if_pos (count_marks_eq_zero_iff.mpr hall)]
  rfl

theorem removeUnreachable_eq_ok (hidx : graph.Indexed) (hmirror : graph.Mirrored)
    (hpost : graph.postorder = .ok order) (hsome : ¬∀ b < graph.size, b ∈ order)
    (hlabels : ∀ {b : Nat} {block : Block}, graph.blocks[b]? = some block → b ∈ order →
      ∀ op ∈ block.operations, LabelsIn graph.size op) :
    graph.removeUnreachable = .ok (graph.keepIn order, (graph.marks order).count false) := by
  rw [removeUnreachable, hpost]
  change (if (graph.marks order).count false = 0 then _ else _) = _
  rw [if_neg (mt count_marks_eq_zero_iff.mp hsome)]
  rw [mapM_eq_ok (keepBlock? order) ?_]
  · change Except.ok _ = _
    rw [map_reduceOption]
    rfl
  · intro block hmem
    obtain ⟨b, hblock⟩ := mem_blocks_iff.mp hmem
    have hindex : block.index = b := hidx hblock
    have hnumber : newIndex (renumber 0 (graph.marks order).toList).toArray block.index = _ :=
      newIndex_eq (hindex ▸ lt_size hblock)
    rw [hnumber, keepBlock?]
    by_cases hb : block.index ∈ order
    · have hkeep : keepBlock (renumber 0 (graph.marks order).toList).toArray block _ = _ :=
        keepBlock_eq (hlabels hblock (hindex ▸ hb))
          (fun c hc => hmirror.lt_size_of_successor (successors_eq hblock ▸ hc))
          (fun c hc => hmirror.lt_size_of_predecessor (predecessors_eq hblock ▸ hc))
      rw [if_pos hb, if_pos hb]
      change (keepBlock _ _ _ >>= fun new => pure (some new)) = _
      rw [hkeep]
      rfl
    · rw [if_neg hb, if_neg hb]
      rfl

theorem labelsIn_of_keepInputs {new : Operation}
    (hkeep : keepInputs (graph.numbersOf order) op = .ok new) : LabelsIn graph.size op := by
  intro hphi input hinput
  by_contra hge
  unfold keepInputs at hkeep
  rw [if_pos hphi, bind_eq_ok] at hkeep
  obtain ⟨inputs, hinputs, -⟩ := hkeep
  obtain ⟨answer, hanswer⟩ := of_mapM_eq_ok hinputs input hinput
  rw [newIndex_eq_error (Nat.not_lt.mp hge)] at hanswer
  cases hanswer

/-- Phi labels that are looked up have to be blocks. -/
theorem labelsIn_of_removeUnreachable (hidx : graph.Indexed) (hpost : graph.postorder = .ok order)
    (hsome : ¬∀ b < graph.size, b ∈ order) {answer : Graph × Nat}
    (hremove : graph.removeUnreachable = .ok answer) (hblock : graph.blocks[b]? = some block)
    (hb : b ∈ order) : ∀ op ∈ block.operations, LabelsIn graph.size op := by
  have hindex : block.index = b := hidx hblock
  rw [removeUnreachable, hpost] at hremove
  change (if (graph.marks order).count false = 0 then _ else _) = _ at hremove
  rw [if_neg (mt count_marks_eq_zero_iff.mp hsome), bind_eq_ok] at hremove
  obtain ⟨blocks, hblocks, -⟩ := hremove
  obtain ⟨new, hnew⟩ := of_mapM_eq_ok hblocks block (mem_blocks_iff.mpr ⟨b, hblock⟩)
  have hnumber : newIndex (renumber 0 (graph.marks order).toList).toArray block.index = _ :=
    newIndex_eq (hindex ▸ lt_size hblock)
  rw [hnumber, hindex, if_pos hb] at hnew
  change (keepBlock _ _ _ >>= _) = _ at hnew
  obtain ⟨kept, hkept, -⟩ := of_bind hnew
  unfold keepBlock at hkept
  obtain ⟨ops, hops, -⟩ := of_bind hkept
  intro op hop
  obtain ⟨keptOp, hkeptOp⟩ := of_mapM_eq_ok hops op hop
  exact labelsIn_of_keepInputs hkeptOp

theorem exists_prunes (hidx : graph.Indexed) (hmirror : graph.Mirrored) (hsize : 0 < graph.size)
    {removed : Nat} (hremove : graph.removeUnreachable = .ok (result, removed)) :
    ∃ order, graph.postorder = .ok order ∧ Prunes graph order result := by
  obtain ⟨order, hpost, horder⟩ := exists_postorder hsize fun h => hmirror.lt_size_of_successor h
  refine ⟨order, hpost, ?_⟩
  by_cases hall : ∀ b < graph.size, b ∈ order
  · rw [removeUnreachable_eq_self hpost hall] at hremove
    cases hremove
    exact prunes_self hidx hmirror hsize horder hall
  · rw [removeUnreachable_eq_ok hidx hmirror hpost hall
      (labelsIn_of_removeUnreachable hidx hpost hall hremove)] at hremove
    cases hremove
    exact prunes_keepIn hidx hmirror hsize horder

/-! ## The reachable part -/

theorem count_filterMap_kept? (ha : a ∈ order) (blocks : List Nat) :
    (blocks.filterMap (kept? order)).count (rankIn order a) = blocks.count a := by
  rw [count_filterMap, count_eq_countP]
  refine countP_congr fun b _ => ?_
  rw [beq_iff_eq, beq_iff_eq]
  constructor
  · intro hkept
    obtain ⟨hb, hsame⟩ := Option.ite_none_right_eq_some.mp hkept
    exact rankIn_injOn hb ha (Option.some.inj hsame)
  · rintro rfl
    exact if_pos ha

theorem mem_filterMap_kept?_iff :
    i ∈ blocks.filterMap (kept? order) ↔ ∃ b ∈ blocks, b ∈ order ∧ rankIn order b = i := by
  simp [mem_filterMap, kept?]

namespace Prunes

variable (hprunes : Prunes graph order result)
include hprunes

variable {b i : Nat}

/-- Every block of the result is what is kept of a reachable block. -/
theorem exists_origin {new : Block} (hnew : result.blocks[i]? = some new) :
    ∃ b block, graph.Reachable b ∧ graph.blocks[b]? = some block ∧ rankIn order b = i ∧
      KeepsBlock order block new := by
  obtain ⟨b, hb, rfl⟩ := hprunes.onto i (lt_size hnew)
  obtain ⟨block, new', hblock, hnew', hkeeps⟩ := hprunes.kept hb
  obtain rfl := Option.mem_unique hnew hnew'
  exact ⟨b, block, hprunes.mem_iff.mp hb, hblock, rfl, hkeeps⟩

theorem successors_eq (hb : b ∈ order) :
    result.successors (rankIn order b) = (graph.successors b).filterMap (kept? order) := by
  obtain ⟨block, new, hblock, hnew, hkeeps⟩ := hprunes.kept hb
  rw [Graph.successors_eq hnew, Graph.successors_eq hblock, hkeeps.successors]

theorem predecessors_eq (hb : b ∈ order) :
    result.predecessors (rankIn order b) = (graph.predecessors b).filterMap (kept? order) := by
  obtain ⟨block, new, hblock, hnew, hkeeps⟩ := hprunes.kept hb
  rw [Graph.predecessors_eq hnew, Graph.predecessors_eq hblock, hkeeps.predecessors]

theorem indexed (hidx : graph.Indexed) : result.Indexed := by
  intro i new hnew
  obtain ⟨b, block, -, hblock, rfl, hkeeps⟩ := hprunes.exists_origin hnew
  have hindex : block.index = b := hidx hblock
  rw [hkeeps.index, hindex]

theorem rank_lt (hb : b ∈ order) : rankIn order b < result.size := by
  obtain ⟨block, new, -, hnew, -⟩ := hprunes.kept hb
  exact lt_size hnew

theorem nonempty : 0 < result.size :=
  Nat.zero_lt_of_lt (hprunes.rank_lt (hprunes.mem_iff.mpr .entry))

theorem mirrored (hmirror : graph.Mirrored) : result.Mirrored := by
  -- blocks that do not exist are nobody's neighbours
  have hinside : ∀ {blocks : List Nat} {i : Nat}, i ∈ blocks.filterMap (kept? order) →
      i < result.size := by
    intro blocks i hi
    obtain ⟨b, -, hb, rfl⟩ := mem_filterMap_kept?_iff.mp hi
    exact hprunes.rank_lt hb
  intro i j
  rcases Nat.lt_or_ge i result.size with hi | hi
  · obtain ⟨a, ha, rfl⟩ := hprunes.onto i hi
    rcases Nat.lt_or_ge j result.size with hj | hj
    · obtain ⟨b, hb, rfl⟩ := hprunes.onto j hj
      rw [hprunes.successors_eq ha, hprunes.predecessors_eq hb, count_filterMap_kept? hb,
        count_filterMap_kept? ha, hmirror a b]
    · have hnone : result.predecessors j = [] := by
        simp [Graph.predecessors, Array.getElem?_eq_none (show result.blocks.size ≤ j from hj)]
      rw [hprunes.successors_eq ha, hnone, count_nil, count_eq_zero]
      exact fun h => Nat.not_lt.mpr hj (hinside h)
  · have hnone : result.successors i = [] := by
      simp [Graph.successors, Array.getElem?_eq_none (show result.blocks.size ≤ i from hi)]
    rw [hnone, count_nil, eq_comm, count_eq_zero]
    intro h
    obtain ⟨b, hb, rfl⟩ := hprunes.onto j (target_lt_size h)
    rw [hprunes.predecessors_eq hb] at h
    exact Nat.not_lt.mpr hi (hinside h)

theorem reachable (hi : i < result.size) : result.Reachable i := by
  obtain ⟨b, hb, rfl⟩ := hprunes.onto i hi
  refine Reachable.induct (motive := fun b => result.Reachable (rankIn order b)) .entry ?_
    (hprunes.mem_iff.mp hb)
  intro a b ha hreach hedge
  refine hreach.step ?_
  rw [Edge, hprunes.successors_eq (hprunes.mem_iff.mpr ha)]
  exact mem_filterMap_kept?_iff.mpr ⟨b, hedge, hprunes.mem_iff.mpr (ha.step hedge), rfl⟩

end Prunes

end GraphJit.Graph
