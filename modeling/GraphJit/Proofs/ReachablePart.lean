import GraphJit.Proofs.CompilationFaults

/-! # What dropping unreachable blocks keeps

The result is the image of the reachable blocks under the only numbering that keeps
their order and leaves no gap. Successors keep their slots; predecessors and phi
inputs that come from dropped blocks are dropped, and the others keep their order.
-/

namespace GraphJit.Graph

open List

variable {graph result : Graph} {number : Nat → Nat} {order : List Nat} {b : Nat}

/-- The block exists and can be reached. -/
def Remains (graph : Graph) (b : Nat) : Prop := b < graph.size ∧ graph.Reachable b

/-- Numbers for the blocks that remain, from zero on without a gap and in their order. -/
structure Numbers (graph : Graph) (number : Nat → Nat) (size : Nat) : Prop where
  increasing : ∀ {a b}, graph.Remains a → graph.Remains b → a < b → number a < number b
  onto : ∀ i, i < size ↔ ∃ b, graph.Remains b ∧ number b = i

/-- There is only one such numbering. -/
theorem Numbers.unique {other : Nat → Nat} {size count : Nat} (hnumber : Numbers graph number size)
    (hother : Numbers graph other count) (hb : graph.Remains b) : number b = other b := by
  induction b using Nat.strongRecOn with
  | _ b ih =>
    -- a number below that of `b` belongs to an earlier block, where both agree
    have hnot : ∀ {f g : Nat → Nat} {n m : Nat}, Numbers graph f n → Numbers graph g m →
        (∀ a < b, graph.Remains a → f a = g a) → ¬f b < g b := by
      intro f g n m hf hg hsame hlt
      obtain ⟨c, hc, hcb⟩ := (hg.onto (f b)).mp
        (Nat.lt_trans hlt ((hg.onto (g b)).mpr ⟨b, hb, rfl⟩))
      have hearlier : c < b := by
        rcases Nat.lt_trichotomy c b with h | rfl | h
        · exact h
        · omega
        · have := hg.increasing hb hc h
          omega
      have := hf.increasing hc hb hearlier
      have := hsame c hearlier hc
      omega
    have := hnot hnumber hother ih
    have := hnot hother hnumber fun a ha hmem => (ih a ha hmem).symm
    omega

open Classical in
/-- The new number of a block, unless it is dropped. -/
noncomputable def newNumber? (graph : Graph) (number : Nat → Nat) (b : Nat) : Option Nat :=
  if graph.Reachable b then some (number b) else none

/-- An operation and what is kept of it: all of it, but for the inputs of a phi that come from
dropped blocks. -/
structure KeepsOperation (number? : Nat → Option Nat) (op new : Operation) : Prop where
  instruction : new.instruction = op.instruction
  destination : new.destination = op.destination
  same : op.isPhi = false → new = op
  inputs : op.isPhi → new.inputs =
    op.inputs.filterMap fun input => (number? input.1).map fun label => (label, input.2)
  paired : op.labels.length = op.sources.length → new.labels.length = new.sources.length

/-- The reachable blocks of a graph under new numbers. -/
structure ReachablePart (graph : Graph) (number : Nat → Nat) (result : Graph) : Prop
    extends Numbers graph number result.size where
  entry : graph.Remains entry → number entry = entry
  locals : result.locals = graph.locals
  blocks : ∀ ⦃b : Nat⦄ ⦃block : Block⦄, graph.Remains b → graph.blocks[b]? = some block →
    ∃ new, result.blocks[number b]? = some new ∧ new.index = number b ∧
      new.successors = block.successors.map number ∧
      new.predecessors = block.predecessors.filterMap (graph.newNumber? number) ∧
      Forall₂ (KeepsOperation (graph.newNumber? number)) block.operations new.operations

theorem keepsOperation_keepOperation (order : List Nat) (op : Operation) :
    KeepsOperation (kept? order) op (keepOperation order op) := by
  unfold keepOperation
  split
  next hphi =>
    refine ⟨rfl, rfl, fun h => absurd (h.symm.trans hphi) (by simp), fun _ => ?_, by simp⟩
    exact (zip_of_prod rfl rfl).symm
  next hphi => exact ⟨rfl, rfl, fun _ => rfl, fun h => absurd h hphi, id⟩

theorem keepsOperation_self {op : Operation}
    (hkept : op.isPhi → ∀ input ∈ op.inputs, kept? order input.1 = some input.1) :
    KeepsOperation (kept? order) op op := by
  refine ⟨rfl, rfl, fun _ => rfl, fun hphi => ?_, id⟩
  rw [filterMap_congr fun input hinput => by rw [hkept hphi input hinput]]
  exact filterMap_some.symm

theorem kept?_eq_newNumber? (horder : ∀ b, b ∈ order ↔ graph.Reachable b) :
    kept? order = graph.newNumber? (rankIn order) := by
  funext b
  unfold kept? newNumber?
  split
  next hb => rw [if_pos ((horder b).mp hb)]
  next hb => rw [if_neg (mt (horder b).mpr hb)]

/-- What a pruned graph has kept, if its operations are kept as well. -/
theorem Prunes.reachablePart (hprunes : Prunes graph order result) (hsize : 0 < graph.size)
    (hmirror : graph.Mirrored) (hidx : graph.Indexed)
    (hops : ∀ {b : Nat} {block new : Block}, graph.blocks[b]? = some block → b ∈ order →
      result.blocks[rankIn order b]? = some new →
        Forall₂ (KeepsOperation (kept? order)) block.operations new.operations) :
    ReachablePart graph (rankIn order) result := by
  refine ⟨⟨fun ha _ hlt => rankIn_lt (hprunes.mem_iff.mpr ha.2) hlt, fun i => ⟨fun hi => ?_, ?_⟩⟩,
    fun _ => rfl, hprunes.locals, fun b block hb hblock => ?_⟩
  · obtain ⟨b, hb, hrank⟩ := hprunes.onto i hi
    have hreach := hprunes.mem_iff.mp hb
    exact ⟨b, ⟨hreach.lt_size hmirror hsize, hreach⟩, hrank⟩
  · rintro ⟨b, hb, rfl⟩
    exact hprunes.rank_lt (hprunes.mem_iff.mpr hb.2)
  · have hmem := hprunes.mem_iff.mpr hb.2
    obtain ⟨old, new, hold, hnew, hkeeps⟩ := hprunes.kept hmem
    obtain rfl := Option.mem_unique hblock hold
    have hindex : block.index = b := hidx hblock
    rw [← kept?_eq_newNumber? fun b => hprunes.mem_iff]
    refine ⟨new, hnew, by rw [hkeeps.index, hindex], ?_, hkeeps.predecessors, hops hblock hmem hnew⟩
    -- what follows a reachable block is reachable
    rw [hkeeps.successors, ← filterMap_eq_map]
    refine filterMap_congr fun c hc => if_pos (hprunes.mem_iff.mpr (hb.2.step ?_))
    rw [Edge, Graph.successors_eq hblock]
    exact hc

theorem removeUnreachable_of_all (hsize : 0 < graph.size) (hmirror : graph.Mirrored)
    (hall : ∀ b < graph.size, graph.Reachable b) : graph.removeUnreachable = .ok (graph, 0) := by
  obtain ⟨order, hpost, horder⟩ := exists_postorder hsize fun h => hmirror.lt_size_of_successor h
  exact removeUnreachable_eq_self hpost fun b hb => (horder b).mpr (hall b hb)

/-- How many blocks are dropped. -/
theorem count_marks_add_rankIn (graph : Graph) (order : List Nat) :
    (graph.marks order).count false + rankIn order graph.size = graph.size := by
  rw [← Array.count_toList, marks_toList, count_eq_countP, countP_map, rankIn]
  have hsplit := length_eq_countP_add_countP (l := List.range graph.size) fun b => decide (b ∈ order)
  rw [length_range] at hsplit
  have hsame : countP ((fun flag => flag == false) ∘ fun b => decide (b ∈ order))
      (List.range graph.size) = countP (fun b => decide ¬decide (b ∈ order) = true)
      (List.range graph.size) := countP_congr fun b _ => by simp
  omega

theorem size_keepIn (hidx : graph.Indexed) :
    (graph.keepIn order).size = rankIn order graph.size := by
  have hall : graph.blocks.toList.take graph.size = graph.blocks.toList :=
    take_of_length_le (by simp [Graph.size])
  rw [← length_filterMap_keepBlock? hidx (Nat.le_refl _), hall]
  rfl

/-- Dropping unreachable blocks keeps exactly the reachable part of a graph, and a second time
there is nothing to drop. -/
theorem removeUnreachable_keeps_reachable_part (hmirror : graph.Mirrored) (hidx : graph.Indexed)
    (hlabels : graph.LabelsNamed) :
    ∃ result removed number, graph.removeUnreachable = .ok (result, removed) ∧
      ReachablePart graph number result ∧
      (∀ other size, Numbers graph other size → ∀ b, graph.Remains b → other b = number b) ∧
      removed + result.size = graph.size ∧ (removed = 0 → result = graph) ∧
      result.removeUnreachable = .ok (result, 0) := by
  rcases Nat.eq_zero_or_pos graph.size with hempty | hsize
  · have hnone : ∀ b, ¬graph.Remains b := fun b hb => by
      have := hb.1
      omega
    have hpost : graph.postorder = .ok [] := by
      rw [postorder, reversePostorder, if_pos hempty]
      rfl
    have hself := removeUnreachable_eq_self hpost fun b hb => by omega
    refine ⟨graph, 0, id, hself, ⟨⟨fun ha => absurd ha (hnone _), fun i => ?_⟩,
      fun h => absurd h (hnone _), rfl, fun b _ h => absurd h (hnone b)⟩,
      fun _ _ _ b h => absurd h (hnone b), by omega, fun _ => rfl, hself⟩
    exact iff_of_false (by omega) fun h => h.elim fun b hb => hnone b hb.1
  obtain ⟨order, hpost, horder⟩ := exists_postorder hsize fun h => hmirror.lt_size_of_successor h
  have hinput : ∀ {b : Nat} {block : Block}, graph.blocks[b]? = some block →
      ∀ op ∈ block.operations, LabelsIn graph.size op := fun hblock op hop hphi input hmem =>
    hlabels op (mem_flatMap.mpr ⟨_, mem_blocks_iff.mpr ⟨_, hblock⟩, hop⟩) hphi _ (of_mem_zip hmem).1
  obtain ⟨result, removed, hremove, hprunes, hops, hcount, hzero⟩ : ∃ result removed,
      graph.removeUnreachable = .ok (result, removed) ∧ Prunes graph order result ∧
      (∀ {b : Nat} {block new : Block}, graph.blocks[b]? = some block → b ∈ order →
        result.blocks[rankIn order b]? = some new →
          Forall₂ (KeepsOperation (kept? order)) block.operations new.operations) ∧
      removed + result.size = graph.size ∧ (removed = 0 → result = graph) := by
    by_cases hall : ∀ b < graph.size, b ∈ order
    · have hrank : ∀ b < graph.size, rankIn order b = b := fun b hb =>
        rankIn_eq_self fun c hc => hall c (Nat.lt_trans hc hb)
      refine ⟨graph, 0, removeUnreachable_eq_self hpost hall,
        prunes_self hidx hmirror hsize horder hall, fun {b block new} hblock _ hnew => ?_,
        by omega, fun _ => rfl⟩
      rw [hrank b (lt_size hblock)] at hnew
      obtain rfl := Option.mem_unique hblock hnew
      refine forall₂_same.mpr fun op hop => keepsOperation_self fun hphi input hmem => ?_
      have hlt := hinput hblock op hop hphi input hmem
      rw [kept?, if_pos (hall _ hlt), hrank _ hlt]
    · refine ⟨_, _, removeUnreachable_eq_ok hidx hmirror hpost hall fun hblock _ =>
        hinput hblock, prunes_keepIn hidx hmirror hsize horder, fun hblock hb hnew => ?_, ?_,
        fun hzero => ?_⟩
      · obtain rfl := Option.mem_unique (getElem?_keepIn hidx hblock hb) hnew
        exact forall₂_map_right_iff.mpr (forall₂_same.mpr fun op _ =>
          keepsOperation_keepOperation order op)
      · rw [size_keepIn hidx]
        exact count_marks_add_rankIn graph order
      · exact absurd (count_marks_eq_zero_iff.mp hzero) hall
  have hpart := hprunes.reachablePart hsize hmirror hidx hops
  refine ⟨result, removed, rankIn order, hremove, hpart, fun other size hother b hb =>
    hother.unique hpart.toNumbers hb, hcount, hzero, ?_⟩
  exact removeUnreachable_of_all hprunes.nonempty (hprunes.mirrored hmirror) fun i =>
    hprunes.reachable

theorem removeUnreachable_keeps_reachable_part_loop :
    loopGraph.Mirrored ∧ loopGraph.Indexed ∧ loopGraph.LabelsNamed ∧
      ∃ result number, loopGraph.removeUnreachable = .ok (result, 1) ∧
        ReachablePart loopGraph number result ∧ result.size = 3 := by
  obtain ⟨hmirror, hidx⟩ := mirrored_and_indexed_of_parse parse_loopText
  have hnamed : loopGraph.LabelsNamed := by decide
  obtain ⟨result, removed, number, hremove, hpart, -, hcount, -⟩ :=
    removeUnreachable_keeps_reachable_part hmirror hidx hnamed
  have hone : loopGraph.removeUnreachable.map Prod.snd = .ok 1 := by cbv
  rw [hremove] at hone
  obtain rfl : removed = 1 := Except.ok.inj hone
  have hfour : loopGraph.size = 4 := rfl
  exact ⟨hmirror, hidx, hnamed, result, number, hremove, hpart, by omega⟩

end GraphJit.Graph
