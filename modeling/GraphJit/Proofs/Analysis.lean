import GraphJit.Dominance.Frontier
import GraphJit.Proofs.ImmediateDominators
import GraphJit.SSA.Phi

/-! # The annotations of an analysed graph

The analysis leaves edges and operations alone. Its annotations describe the
dominator tree, and the frontier of each block: the joins with a predecessor below
the block that are not themselves below it.
-/

namespace GraphJit.Dominance

open List

open GraphJit.Graph (entry)

variable {graph : Graph}

/-! ## Climbing the tree -/

variable {b r fuel stop : Nat} {idoms : Idoms} {block : Block} {parent : Nat → Option Nat}
  {result : Graph}

theorem mem_climb_iff {rank : Nat → Nat} (hrooted : Rooted entry rank idoms.get)
    (hb : (idoms.get b).isSome) (hfuel : rank b < fuel) (hstop : Above idoms.get stop b) (r : Nat) :
    r ∈ climb idoms stop fuel b ↔ Above idoms.get r b ∧ ¬Above idoms.get r stop := by
  induction fuel generalizing b with
  | zero => omega
  | succ fuel ih =>
    rw [climb]
    by_cases hbs : b = stop
    · subst hbs
      simp
    · obtain ⟨up, hparent, habove⟩ := hstop.parent_of_ne (Ne.symm hbs)
      have hroot : b ≠ entry := by
        rintro rfl
        exact hbs (hstop.eq_root hrooted).symm
      have hlower := hrooted.lower hroot hparent
      have hne : up ≠ b := by
        rintro rfl
        exact Nat.lt_irrefl _ hlower
      simp only [if_neg hbs, hparent, if_neg hne, mem_cons,
        ih (hrooted.closed hparent) (by omega) habove]
      constructor
      · rintro (rfl | ⟨hr, hnot⟩)
        · exact ⟨.refl, fun h => hbs (h.antisymm hrooted hstop)⟩
        · exact ⟨.up hparent hr, hnot⟩
      · rintro ⟨hr, hnot⟩
        by_cases heq : r = b
        · exact .inl heq
        · obtain ⟨other, hother, hr'⟩ := hr.parent_of_ne heq
          obtain rfl := Option.mem_unique hparent hother
          exact .inr ⟨hr', hnot⟩

theorem climb_eq_nil (hb : idoms.get b = none) : climb idoms stop fuel b = [] := by
  cases fuel with
  | zero => rfl
  | succ fuel => simp [climb, hb]

/-- The joins with a block in front of them that `r` is above, but not above their parent. -/
def InFrontier (graph : Graph) (parent : Nat → Option Nat) (r b : Nat) : Prop :=
  ∃ p v, graph.Edge p b ∧ graph.Reachable p ∧ parent b = some v ∧ Above parent r p ∧
    ¬Above parent r v

theorem InFrontier.lt_size (hin : InFrontier graph parent r b) (hmirror : graph.Mirrored) :
    b < graph.size := by
  obtain ⟨p, v, hedge, -⟩ := hin
  exact hmirror.lt_size_of_successor hedge

theorem Immediate.reachable_of_inFrontier (himm : Immediate graph parent)
    (hin : InFrontier graph parent r b) : graph.Reachable r := by
  obtain ⟨p, v, -, hreach, -, hr, -⟩ := hin
  obtain ⟨rank, hrooted, -⟩ := himm.rooted
  exact himm.defined_iff.mp (hr.defined hrooted (himm.defined_iff.mpr hreach))

theorem exists_predecessor_of_owner (himm : Immediate graph idoms.get)
    (hr : r ∈ frontierOwners idoms block) : ∃ p ∈ block.predecessors, graph.Reachable p := by
  unfold frontierOwners at hr
  split at hr
  next => simp at hr
  next =>
    split at hr
    next => simp at hr
    next =>
      obtain ⟨p, hp, hclimb⟩ := mem_flatMap.mp hr
      refine ⟨p, hp, himm.defined_iff.mp ?_⟩
      by_contra hnone
      rw [climb_eq_nil (by simpa using hnone)] at hclimb
      simp at hclimb

theorem mem_frontierOwners_iff (hmirror : graph.Mirrored) (hsize : idoms.size = graph.size)
    (himm : Immediate graph idoms.get) (hblock : graph.blocks[b]? = some block)
    (hindex : block.index = b) (hne : b ≠ entry) (r : Nat) :
    r ∈ frontierOwners idoms block ↔ InFrontier graph idoms.get r b := by
  obtain ⟨rank, hrooted, hlast⟩ := himm.rooted
  have hedge : ∀ p, p ∈ block.predecessors ↔ graph.Edge p b := by
    intro p
    rw [← Graph.predecessors_eq hblock]
    exact hmirror.mem_iff.symm
  unfold frontierOwners InFrontier
  rw [hindex]
  split
  next hnone => simp [hnone]
  next stop hstop =>
    have hclimb : ∀ {p}, graph.Edge p b → (r ∈ climb idoms stop idoms.size p ↔
        graph.Reachable p ∧ Above idoms.get r p ∧ ¬Above idoms.get r stop) := by
      intro p hp
      cases hdef : idoms.get p with
      | none =>
        have hunreached : ¬graph.Reachable p := by
          rw [← himm.defined_iff, hdef]
          simp
        simp [climb_eq_nil hdef, hunreached]
      | some v =>
        have hp' : (idoms.get p).isSome := Option.isSome_of_eq_some hdef
        have hreach := himm.defined_iff.mp hp'
        rw [mem_climb_iff hrooted hp' (hsize ▸ hlast hp')
          (himm.above_predecessor hne hstop hreach hp)]
        simp [hreach]
    split
    next hfew =>
      -- a single predecessor is the parent itself
      refine iff_of_false (by simp) ?_
      rintro ⟨p, v, hp, hreach, hv, hr, hnot⟩
      obtain rfl := Option.mem_unique hstop hv
      have honly : ∀ q, graph.Edge q b → q = p := by
        intro q hq
        obtain ⟨only, honly⟩ : ∃ only, block.predecessors = [only] := by
          have hpos := length_pos_of_mem ((hedge p).mpr hp)
          exact length_eq_one_iff.mp (by omega)
        have hp' := (hedge p).mpr hp
        have hq' := (hedge q).mpr hq
        rw [honly, mem_singleton] at hp' hq'
        rw [hp', hq']
      have hb := hreach.step hp
      obtain ⟨q, hqb, -, hq⟩ := hb.exists_predecessor hne
      have hpb : p ≠ b := honly q hq ▸ hqb
      obtain ⟨other, hother, habove⟩ :=
        (himm.above_of_dominates hb (.of_unique hne honly)).parent_of_ne hpb
      obtain rfl := Option.mem_unique hstop hother
      exact hnot (hr.trans habove)
    next =>
      simp only [mem_flatMap, hedge]
      constructor
      · rintro ⟨p, hp, hmem⟩
        obtain ⟨hreach, hr, hnot⟩ := (hclimb hp).mp hmem
        exact ⟨p, stop, hp, hreach, hstop, hr, hnot⟩
      · rintro ⟨p, v, hp, hreach, hv, hr, hnot⟩
        obtain rfl := Option.mem_unique hstop hv
        exact ⟨p, hp, (hclimb hp).mpr ⟨hreach, hr, hnot⟩⟩

/-! ## The annotated graph -/

/-- Two graphs with the same blocks as far as edges go. -/
structure SameEdges (graph result : Graph) : Prop where
  size : result.size = graph.size
  kept : ∀ {b : Nat} {block : Block}, graph.blocks[b]? = some block →
    ∃ other, result.blocks[b]? = some other ∧ other.index = block.index ∧
      other.successors = block.successors ∧ other.predecessors = block.predecessors

/-- Two graphs with the same blocks, up to what the analysis writes into them. -/
structure SameFlow (graph result : Graph) : Prop extends SameEdges graph result where
  locals : result.locals = graph.locals
  annotated : ∀ {b : Nat} {block : Block}, graph.blocks[b]? = some block →
    ∃ parent frontier, result.blocks[b]? =
      some { block with immediateDominator := parent, frontier := frontier }

/-- The parent of a block as annotated; the entry is its own. -/
def parentOf (graph : Graph) (b : Nat) : Option Nat :=
  if b = entry then some entry else graph.blocks[b]?.bind (·.immediateDominator)

/-- Graphs that carry the results of the analysis. -/
structure Analyzed (graph : Graph) : Prop where
  mirrored : graph.Mirrored
  indexed : graph.Indexed
  nonempty : 0 < graph.size
  immediate : Immediate graph (parentOf graph)
  entry_parent : ∀ {block : Block}, graph.blocks[entry]? = some block →
    block.immediateDominator = none
  frontier_iff : ∀ {b}, b ≠ entry → ∀ r, b ∈ SSA.frontierOf graph r ↔
    InFrontier graph (parentOf graph) r b
  /-- The entry is a join only if some reachable block goes back to it. -/
  frontier_entry : ∀ {r}, entry ∈ SSA.frontierOf graph r →
    ∃ p, graph.Reachable p ∧ graph.Edge p entry
  frontier_lt : ∀ {b r}, b ∈ SSA.frontierOf graph r → b < graph.size
  frontier_nodup : ∀ r, (SSA.frontierOf graph r).Nodup

namespace SameEdges

variable {result : Graph} (hsame : SameEdges graph result)
include hsame

variable {b : Nat} {parent : Nat → Option Nat}

theorem blocks_none (hb : graph.size ≤ b) : result.blocks[b]? = none ∧ graph.blocks[b]? = none := by
  have := hsame.size
  simp only [Graph.size, Array.getElem?_eq_none_iff] at *
  omega

theorem successors (b : Nat) : result.successors b = graph.successors b := by
  rcases Nat.lt_or_ge b graph.size with hb | hb
  · obtain ⟨block, hblock⟩ := Graph.exists_block hb
    obtain ⟨other, hresult, -, hsuccs, -⟩ := hsame.kept hblock
    rw [Graph.successors_eq hblock, Graph.successors_eq hresult, hsuccs]
  · simp only [Graph.successors, hsame.blocks_none hb]

theorem predecessors (b : Nat) : result.predecessors b = graph.predecessors b := by
  rcases Nat.lt_or_ge b graph.size with hb | hb
  · obtain ⟨block, hblock⟩ := Graph.exists_block hb
    obtain ⟨other, hresult, -, -, hpreds⟩ := hsame.kept hblock
    rw [Graph.predecessors_eq hblock, Graph.predecessors_eq hresult, hpreds]
  · simp only [Graph.predecessors, hsame.blocks_none hb]

theorem mirrored (hmirror : graph.Mirrored) : result.Mirrored := by
  intro a b
  rw [hsame.successors, hsame.predecessors, hmirror]

theorem indexed (hidx : graph.Indexed) : result.Indexed := by
  intro b block hblock
  obtain ⟨old, hold⟩ := Graph.exists_block (hsame.size ▸ Graph.lt_size hblock)
  obtain ⟨other, hresult, hindex, -⟩ := hsame.kept hold
  obtain rfl := Option.mem_unique hblock hresult
  exact hindex.trans (hidx hold)

theorem edge_iff (a b : Nat) : result.Edge a b ↔ graph.Edge a b := by
  rw [Graph.Edge, Graph.Edge, hsame.successors]

theorem reachable_iff : result.Reachable b ↔ graph.Reachable b := by
  rw [Graph.Reachable, Graph.Reachable, Graph.path_congr hsame.edge_iff]

theorem dominates_iff {a : Nat} : result.Dominates a b ↔ graph.Dominates a b := by
  rw [Graph.Dominates, Graph.Dominates, Graph.path_congr hsame.edge_iff]

theorem inFrontier_iff : InFrontier result parent r b ↔ InFrontier graph parent r b := by
  simp only [InFrontier, hsame.edge_iff, hsame.reachable_iff]

theorem immediate (himm : Immediate graph parent) : Immediate result parent := by
  refine ⟨?_, ?_, ?_, ?_⟩
  · rw [hsame.size]
    exact himm.rooted
  · exact himm.defined_iff.trans hsame.reachable_iff.symm
  · intro p b v hb hv hp hedge
    exact himm.above_predecessor hb hv (hsame.reachable_iff.mp hp) ((hsame.edge_iff _ _).mp hedge)
  · intro a b hb hdom
    exact himm.above_of_dominates (hsame.reachable_iff.mp hb) (hsame.dominates_iff.mp hdom)

end SameEdges

theorem SameFlow.cases (hsame : SameFlow graph result) (hblock : result.blocks[b]? = some block) :
    ∃ old, graph.blocks[b]? = some old ∧ ∃ parent frontier,
      block = { old with immediateDominator := parent, frontier := frontier } := by
  obtain ⟨old, hold⟩ := Graph.exists_block (hsame.size ▸ Graph.lt_size hblock)
  obtain ⟨parent, frontier, hresult⟩ := hsame.annotated hold
  exact ⟨old, hold, parent, frontier, Option.mem_unique hblock hresult⟩

/-- The analysis depends on the edges only. -/
theorem Analyzed.of_sameEdges (hdoms : Analyzed graph) (hsame : SameEdges graph result)
    (hparent : parentOf result = parentOf graph)
    (hentry : ∀ {block : Block}, result.blocks[entry]? = some block →
      block.immediateDominator = none) (hfront : SSA.frontierOf result = SSA.frontierOf graph) :
    Analyzed result := by
  refine ⟨hsame.mirrored hdoms.mirrored, hsame.indexed hdoms.indexed,
    hsame.size ▸ hdoms.nonempty, hparent ▸ hsame.immediate hdoms.immediate, hentry, ?_, ?_,
    ?_, ?_⟩
  · intro b hb r
    rw [hfront, hparent, hsame.inFrontier_iff]
    exact hdoms.frontier_iff hb r
  · intro r hmem
    obtain ⟨p, hp, hedge⟩ := hdoms.frontier_entry (hfront ▸ hmem)
    exact ⟨p, hsame.reachable_iff.mpr hp, (hsame.edge_iff _ _).mpr hedge⟩
  · intro b r hmem
    rw [hsame.size]
    exact hdoms.frontier_lt (hfront ▸ hmem)
  · exact hfront ▸ hdoms.frontier_nodup

theorem mem_frontiers_iff (idoms : Idoms) (hidx : graph.Indexed) (hr : r < graph.size) :
    ∃ frontier, (frontiers graph idoms)[r]? = some frontier ∧ frontier.Nodup ∧
      ∀ b, b ∈ frontier ↔ ∃ block, graph.blocks[b]? = some block ∧
        r ∈ frontierOwners idoms block := by
  let owners := graph.blocks.toList.map fun block => (block.index, frontierOwners idoms block)
  refine ⟨(owners.filter fun join => join.2.contains r).map Prod.fst, ?_, ?_, ?_⟩
  · simp [frontiers, hr, owners]
  · have hfst : owners.map Prod.fst = List.range graph.size := by
      rw [← hidx.indices]
      simp [owners, Function.comp_def]
    have hsub : ((owners.filter fun join => join.2.contains r).map Prod.fst).Sublist
        (owners.map Prod.fst) := filter_sublist.map _
    exact hsub.nodup (hfst ▸ nodup_range)
  · intro b
    simp only [mem_map, mem_filter, owners, Graph.mem_blocks_iff]
    constructor
    · rintro ⟨_, ⟨⟨block, ⟨c, hblock⟩, rfl⟩, hmem⟩, rfl⟩
      have hindex : block.index = c := hidx hblock
      exact ⟨block, hindex ▸ hblock, by simpa using hmem⟩
    · rintro ⟨block, hblock, hmem⟩
      exact ⟨(block.index, frontierOwners idoms block),
        ⟨⟨block, ⟨b, hblock⟩, rfl⟩, by simpa using hmem⟩, hidx hblock⟩

/-- The graph with all annotations that the analysis derives from a table of dominators. -/
def annotate (graph : Graph) (idoms : Idoms) : Graph :=
  let annotate (block : Block) (frontier : List Nat) : Block :=
    { block with
      immediateDominator := if block.index = entry then none else idoms.get block.index
      frontier }
  { graph with blocks := (graph.blocks.toList.zipWith annotate (frontiers graph idoms)).toArray }

section Annotate

variable (idoms : Idoms) (hidx : graph.Indexed)
include hidx

theorem exists_annotate (hblock : graph.blocks[b]? = some block) :
    ∃ frontier, (annotate graph idoms).blocks[b]? = some { block with
        immediateDominator := if b = entry then none else idoms.get b, frontier } ∧
      frontier.Nodup ∧ ∀ c, c ∈ frontier ↔ ∃ join, graph.blocks[c]? = some join ∧
        b ∈ frontierOwners idoms join := by
  obtain ⟨frontier, hfront, hspec⟩ := mem_frontiers_iff idoms hidx (Graph.lt_size hblock)
  have hindex : block.index = b := hidx hblock
  refine ⟨frontier, ?_, hspec⟩
  simp [annotate, getElem?_zipWith, hblock, hfront, hindex]

theorem sameFlow_annotate : SameFlow graph (annotate graph idoms) := by
  refine ⟨⟨by simp [annotate, Graph.size, frontiers], ?_⟩, rfl, ?_⟩
  all_goals
    intro b block hblock
    obtain ⟨frontier, hresult, -⟩ := exists_annotate idoms hidx hblock
  · exact ⟨_, hresult, rfl, rfl, rfl⟩
  · exact ⟨_, _, hresult⟩

theorem frontierOf_annotate (r : Nat) : (SSA.frontierOf (annotate graph idoms) r).Nodup ∧
      ∀ b, b ∈ SSA.frontierOf (annotate graph idoms) r ↔ r < graph.size ∧
        ∃ block, graph.blocks[b]? = some block ∧ r ∈ frontierOwners idoms block := by
  rcases Nat.lt_or_ge r graph.size with hlt | hge
  · obtain ⟨block, hblock⟩ := Graph.exists_block hlt
    obtain ⟨frontier, hresult, hnodup, hmem⟩ := exists_annotate idoms hidx hblock
    simpa only [SSA.frontierOf, hresult, hlt, true_and] using And.intro hnodup hmem
  · have hnone := ((sameFlow_annotate idoms hidx).blocks_none hge).1
    simp [SSA.frontierOf, hnone, Nat.not_lt.mpr hge]

end Annotate

/-- The analysis annotates every graph that has an entry. -/
theorem exists_analyze (hmirror : graph.Mirrored) (hidx : graph.Indexed) (hsize : 0 < graph.size) :
    ∃ result, analyze graph = .ok result ∧ SameFlow graph result ∧ Analyzed result := by
  obtain ⟨idoms, hidoms, hsize', himm, -⟩ := exists_idoms hmirror hsize
  have hsame := sameFlow_annotate idoms hidx
  have hfront := frontierOf_annotate idoms hidx
  have hparent : parentOf (annotate graph idoms) = idoms.get := by
    obtain ⟨rank, hrooted, -⟩ := himm.rooted
    funext b
    by_cases hb : b = entry
    · rw [parentOf, if_pos hb, hb, hrooted.loop]
    · rw [parentOf, if_neg hb]
      rcases Nat.lt_or_ge b graph.size with hlt | hge
      · obtain ⟨block, hblock⟩ := Graph.exists_block hlt
        obtain ⟨frontier, hresult, -⟩ := exists_annotate idoms hidx hblock
        simp [hresult, hb]
      · have hnone : idoms[b]? = none := Array.getElem?_eq_none (hsize' ▸ hge)
        simp [(hsame.blocks_none hge).1, Idoms.get, hnone]
  refine ⟨annotate graph idoms, ?_, hsame, hsame.mirrored hmirror, hsame.indexed hidx, ?_, ?_,
    ?_, ?_, ?_, ?_, fun r => (hfront r).1⟩
  · simp only [analyze, hidoms, bind, Except.bind]
    rfl
  · rw [hsame.size]
    exact hsize
  · rw [hparent]
    exact hsame.immediate himm
  · intro block hblock
    obtain ⟨old, hold⟩ := Graph.exists_block hsize
    obtain ⟨frontier, hresult, -⟩ := exists_annotate idoms hidx hold
    obtain rfl := Option.mem_unique hblock hresult
    rfl
  · intro b hb r
    rw [(hfront r).2, hparent, hsame.inFrontier_iff]
    constructor
    · rintro ⟨-, block, hblock, hmem⟩
      exact (mem_frontierOwners_iff hmirror hsize' himm hblock (hidx hblock) hb r).mp hmem
    · rintro hin
      obtain ⟨block, hblock⟩ := Graph.exists_block (hin.lt_size hmirror)
      refine ⟨?_, block, hblock,
        (mem_frontierOwners_iff hmirror hsize' himm hblock (hidx hblock) hb r).mpr hin⟩
      exact (himm.reachable_of_inFrontier hin).lt_size hmirror hsize
  · intro r hentry
    obtain ⟨-, block, hblock, hmem⟩ := ((hfront r).2 entry).mp hentry
    obtain ⟨p, hp, hreach⟩ := exists_predecessor_of_owner himm hmem
    refine ⟨p, hsame.reachable_iff.mpr hreach, (hsame.edge_iff _ _).mpr ?_⟩
    rw [← Graph.predecessors_eq hblock] at hp
    exact hmirror.mem_iff.mpr hp
  · intro b r hb
    obtain ⟨-, block, hblock, -⟩ := ((hfront r).2 b).mp hb
    exact hsame.size ▸ Graph.lt_size hblock

end GraphJit.Dominance
