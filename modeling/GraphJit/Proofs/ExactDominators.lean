import GraphJit.Proofs.DominatorTree
import GraphJit.Proofs.ParsedGraphs
import Mathlib.Data.List.Permutation

/-! # The analysis is exact

The analysis comes to an end for every graph whose edges are seen from both ends,
whatever its shape: none of its loops needs the bound that it carries. Afterwards the
annotation of a block is its immediate dominator, the one among its other dominators
that all of them dominate, and its frontier lists the blocks where its dominance ends.
The tree built from the annotations knows which blocks dominate which.
-/

namespace GraphJit.Dominance

open GraphJit.Graph (entry)

variable {graph : Graph}

/-- The way up from a block as far as the one below `stop`, with nothing that bounds it. -/
inductive Climbs (idoms : Idoms) (stop : Nat) : Nat → List Nat → Prop where
  | stop : Climbs idoms stop stop []
  | unreached {b : Nat} (hne : b ≠ stop) (hnone : idoms.get b = none) : Climbs idoms stop b []
  | root {b : Nat} (hne : b ≠ stop) (hroot : idoms.get b = some b) : Climbs idoms stop b [b]
  | up {b up : Nat} {rest : List Nat} (hne : b ≠ stop) (hup : idoms.get b = some up)
      (hmoves : up ≠ b) (hrest : Climbs idoms stop up rest) : Climbs idoms stop b (b :: rest)

theorem climbs_climb {idoms : Idoms} {rank : Nat → Nat} (hrooted : Rooted entry rank idoms.get)
    {fuel stop b : Nat} (hfuel : (idoms.get b).isSome → rank b < fuel) (hpos : 0 < fuel) :
    Climbs idoms stop b (climb idoms stop fuel b) := by
  induction fuel generalizing b with
  | zero => omega
  | succ fuel ih =>
    rw [climb]
    by_cases hstop : b = stop
    · subst hstop
      rw [if_pos rfl]
      exact .stop
    rw [if_neg hstop]
    cases hparent : idoms.get b with
    | none => exact .unreached hstop hparent
    | some up =>
      dsimp only
      split
      next hroot =>
        subst hroot
        exact .root hstop hparent
      next hmoves =>
        have hne : b ≠ entry := by
          rintro rfl
          exact hmoves (Option.some.inj (hparent.symm.trans hrooted.loop))
        have hlower := hrooted.lower hne hparent
        have hb := hfuel (Option.isSome_of_eq_some hparent)
        exact .up hstop hparent hmoves (ih (fun _ => by omega) (by omega))

/-- The loops of the analysis come to an end by themselves, those that walk up the tree
for the frontiers included. -/
def Terminates (graph : Graph) : Prop :=
  ∃ idoms, Dominance.idoms graph = .ok idoms ∧ Computes graph idoms ∧
    ∀ block ∈ graph.blocks.toList, ∀ stop, idoms.get block.index = some stop →
      ∀ p ∈ block.predecessors, Climbs idoms stop p (climb idoms stop idoms.size p)

theorem terminates_of_mirrored (hmirror : graph.Mirrored) (hsize : 0 < graph.size) :
    Terminates graph := by
  obtain ⟨idoms, hidoms, hcount, himm, hcomputes⟩ := exists_idoms hmirror hsize
  obtain ⟨rank, hrooted, hlast⟩ := himm.rooted
  refine ⟨idoms, hidoms, hcomputes, fun _ _ stop _ p _ => climbs_climb hrooted ?_ ?_⟩
  · exact fun hp => hcount ▸ hlast hp
  · exact hcount ▸ hsize

/-- The annotation of one block. -/
theorem Analyzed.immediateDominator_cases (hanalyzed : Analyzed graph) {b : Nat} {block : Block}
    (hblock : graph.blocks[b]? = some block) :
    (block.immediateDominator = none ↔ b = entry ∨ ¬graph.Reachable b) ∧
      ∀ d, block.immediateDominator = some d → d ≠ b ∧ graph.Dominates d b ∧
        ∀ a, a ≠ b → graph.Dominates a b → graph.Dominates a d := by
  have himm := hanalyzed.immediate
  obtain ⟨rank, hrooted, -⟩ := himm.rooted
  by_cases hentry : b = entry
  · subst hentry
    have hnone := hanalyzed.entry_parent hblock
    exact ⟨iff_of_true hnone (.inl rfl), fun d hd => by rw [hnone] at hd; cases hd⟩
  have hparent : parentOf graph b = block.immediateDominator := by
    rw [parentOf, if_neg hentry, hblock]
    rfl
  constructor
  · rw [or_iff_right hentry, ← himm.defined_iff, hparent, Bool.not_eq_true,
      Option.isSome_eq_false_iff, Option.isNone_iff_eq_none]
  · intro d hd
    rw [hd] at hparent
    have hreach : graph.Reachable b := himm.defined_iff.mp (Option.isSome_of_eq_some hparent)
    have hreach' : graph.Reachable d := himm.defined_iff.mp (hrooted.closed hparent)
    refine ⟨?_, (himm.above_iff hreach).mp (.up hparent .refl), fun a hne hdom => ?_⟩
    · rintro rfl
      exact Nat.lt_irrefl _ (hrooted.lower hentry hparent)
    · obtain ⟨other, hother, habove⟩ := (himm.above_of_dominates hreach hdom).parent_of_ne hne
      obtain rfl := Option.mem_unique hparent hother
      exact (himm.above_iff hreach').mp habove

theorem analyze_empty (hempty : graph.size = 0) :
    analyze graph = .ok { graph with blocks := #[] } := by
  have hblocks : graph.blocks = #[] := Array.size_eq_zero_iff.mp hempty
  simp [analyze, idoms, Graph.reversePostorder, hempty, hblocks]
  rfl

/-- The analysis ends for every graph whose edges are seen from both ends, and finds the
immediate dominator of exactly those blocks that have one. -/
theorem analyze_finds_immediateDominators (hmirror : graph.Mirrored) (hidx : graph.Indexed) :
    ∃ result, analyze graph = .ok result ∧ result.size = graph.size ∧
      (0 < graph.size → Terminates graph) ∧
      ∀ b block, result.blocks[b]? = some block →
        (block.immediateDominator = none ↔ b = entry ∨ ¬graph.Reachable b) ∧
        ∀ d, block.immediateDominator = some d → d ≠ b ∧ graph.Dominates d b ∧
          ∀ a, a ≠ b → graph.Dominates a b → graph.Dominates a d := by
  rcases Nat.eq_zero_or_pos graph.size with hempty | hsize
  · exact ⟨_, analyze_empty hempty, hempty.symm, fun hpos => by omega, by simp⟩
  obtain ⟨result, hresult, hsame, hanalyzed⟩ := exists_analyze hmirror hidx hsize
  refine ⟨result, hresult, hsame.size, terminates_of_mirrored hmirror, fun b block hblock => ?_⟩
  have hcases := hanalyzed.immediateDominator_cases hblock
  simpa only [hsame.reachable_iff, hsame.dominates_iff] using hcases

/-- Two blocks that lead to each other and are both entered from outside, a block with two
edges to the same one, an edge back to the entry, and a block that nothing leads to. -/
def tangled : Graph where
  blocks := #[
    { index := 0, successors := [1, 2], predecessors := [4] },
    { index := 1, successors := [2, 1], predecessors := [0, 1, 2] },
    { index := 2, successors := [1, 3], predecessors := [0, 1] },
    { index := 3, successors := [4, 4], predecessors := [2, 5] },
    { index := 4, successors := [0], predecessors := [3, 3] },
    { index := 5, successors := [3] }]

theorem tangled_mirrored_and_indexed : tangled.Mirrored ∧ tangled.Indexed := by
  have hparse : Graph.parse ("block 0 -> 1, 2\nblock 1 -> 2, 1\nblock 2 -> 1, 3\n" ++
      "block 3 -> 4, 4\nblock 4 -> 0\nblock 5 -> 3\n") = .ok tangled := by decide +kernel
  exact mirrored_and_indexed_of_parse hparse

theorem analyze_finds_immediateDominators_tangled :
    tangled.Mirrored ∧ tangled.Indexed ∧ tangled.Dominates 2 3 ∧ ¬tangled.Dominates 1 2 ∧
      ¬tangled.Reachable 5 := by
  obtain ⟨hmirror, hidx⟩ := tangled_mirrored_and_indexed
  obtain ⟨result, hresult, -, -, hexact⟩ := analyze_finds_immediateDominators hmirror hidx
  have hanalyze : (analyze tangled).toOption.map (·.blocks.map (·.immediateDominator)) =
      some #[none, some 0, some 0, some 2, some 3, none] := by cbv
  have hidoms (b : Nat) : result.blocks[b]?.map (·.immediateDominator) =
      #[none, some 0, some 0, some 2, some 3, none][b]? := by
    rw [hresult] at hanalyze
    rw [← Array.getElem?_map]
    exact congrArg (·[b]?) (Option.some.inj hanalyze)
  obtain ⟨two, htwo, hidom⟩ := Option.map_eq_some_iff.mp (hidoms 2)
  obtain ⟨three, hthree, hidom'⟩ := Option.map_eq_some_iff.mp (hidoms 3)
  obtain ⟨five, hfive, hnone⟩ := Option.map_eq_some_iff.mp (hidoms 5)
  refine ⟨hmirror, hidx, ((hexact 3 three hthree).2 2 hidom').2.1, fun hdom => ?_, ?_⟩
  · -- the path that stays in the entry does not pass block 1
    have habove := ((hexact 2 two htwo).2 0 hidom).2.2 1 (by decide) hdom
    exact absurd (List.mem_singleton.mp (habove _ .entry)) (by decide)
  · exact ((hexact 5 five hfive).1.mp hnone).resolve_left (by decide)

open DominatorTree in
/-- The tree of an analysed graph: the walk around it ends by itself and gives the times of the
blocks, its descent ends by itself and lists every reachable block once, behind its immediate
dominator, and it answers by the times which blocks dominate which. -/
theorem analyze_yields_dominatorTree (hmirror : graph.Mirrored) (hidx : graph.Indexed) :
    ∃ result, analyze graph = .ok result ∧
      (0 < graph.size → (∃ last spans, Clocked result last spans) ∧
        Descends (ofGraph result).children [entry] (ofGraph result).preorder) ∧
      (∀ b < graph.size, (ofGraph result).isReachable b ↔ graph.Reachable b) ∧
      (∀ a < graph.size, ∀ b < graph.size, (ofGraph result).dominates a b ↔
        graph.Reachable a ∧ graph.Reachable b ∧ graph.Dominates a b) ∧
      (ofGraph result).preorder.Nodup ∧
      (∀ b, b ∈ (ofGraph result).preorder ↔ b < graph.size ∧ graph.Reachable b) ∧
      ∀ b block d, result.blocks[b]? = some block → block.immediateDominator = some d →
        [d, b].Sublist (ofGraph result).preorder := by
  rcases Nat.eq_zero_or_pos graph.size with hempty | hsize
  · have hpreorder : (ofGraph { graph with blocks := #[] }).preorder = [] := rfl
    exact ⟨_, analyze_empty hempty, by simp [hempty, hpreorder]⟩
  obtain ⟨result, hresult, hsame, hanalyzed⟩ := exists_analyze hmirror hidx hsize
  have hpre := preorder_ofGraph hanalyzed
  have himm := hanalyzed.immediate
  refine ⟨result, hresult, fun _ => ⟨exists_clocked hanalyzed, hpre.descends⟩, fun b _ => ?_, fun a _ b _ => ?_, hpre.nodup,
    fun b => ?_, fun b block d hblock hd => ?_⟩
  · rw [isReachable_iff hanalyzed, hsame.reachable_iff]
  · rw [dominates_iff hanalyzed, ← hsame.reachable_iff, ← hsame.reachable_iff,
      ← hsame.dominates_iff]
    constructor
    · rintro ⟨hb, habove⟩
      have hdom := (himm.above_iff hb).mp habove
      exact ⟨hdom.reachable hb, hb, hdom⟩
    · rintro ⟨-, hb, hdom⟩
      exact ⟨hb, himm.above_of_dominates hb hdom⟩
  · rw [hpre.mem_iff, hsame.reachable_iff, iff_and_self]
    exact fun hreach => hreach.lt_size hmirror hsize
  · obtain ⟨hnone, -⟩ := hanalyzed.immediateDominator_cases hblock
    have hb : ¬(b = entry ∨ ¬result.Reachable b) := fun h => by
      rw [hnone.mpr h] at hd
      cases hd
    obtain ⟨hne, hreach⟩ := not_or.mp hb
    refine hpre.parent_first (hpre.mem_iff.mpr (not_not.mp hreach)) hne ?_
    rw [parentOf, if_neg hne, hblock]
    exact hd

theorem analyze_yields_dominatorTree_tangled : tangled.Mirrored ∧ tangled.Indexed ∧
    ∃ result, analyze tangled = .ok result ∧ (DominatorTree.ofGraph result).preorder.Nodup := by
  obtain ⟨hmirror, hidx⟩ := tangled_mirrored_and_indexed
  obtain ⟨result, hresult, -, -, -, hnodup, -⟩ := analyze_yields_dominatorTree hmirror hidx
  exact ⟨hmirror, hidx, result, hresult, hnodup⟩

/-- Where the dominance of `r` ends: `b` is entered from a block that `r` dominates, and is
not below `r` itself. -/
def EndsAt (graph : Graph) (r b : Nat) : Prop :=
  graph.Reachable b ∧ (∃ p ∈ graph.predecessors b, graph.Reachable p ∧ graph.Dominates r p) ∧
    ¬(r ≠ b ∧ graph.Dominates r b)

/-- Frontiers in terms of the tree are frontiers in terms of paths. -/
theorem Analyzed.inFrontier_iff_endsAt (hanalyzed : Analyzed graph) {r b : Nat} (hb : b ≠ entry) :
    InFrontier graph (parentOf graph) r b ↔ EndsAt graph r b := by
  have himm := hanalyzed.immediate
  obtain ⟨rank, hrooted, -⟩ := himm.rooted
  constructor
  · rintro ⟨p, v, hedge, hp, hv, hr, hnot⟩
    have hreach := hp.step hedge
    refine ⟨hreach, ⟨p, hanalyzed.mirrored.mem_iff.mp hedge, hp, (himm.above_iff hp).mp hr⟩, ?_⟩
    rintro ⟨hne, hdom⟩
    obtain ⟨up, hup, habove⟩ := (himm.above_of_dominates hreach hdom).parent_of_ne hne
    obtain rfl := Option.mem_unique hv hup
    exact hnot habove
  · rintro ⟨hreach, ⟨p, hp, hreach', hdom⟩, hnot⟩
    obtain ⟨v, hv⟩ := Option.isSome_iff_exists.mp (himm.defined_iff.mpr hreach)
    refine ⟨p, v, hanalyzed.mirrored.mem_iff.mpr hp, hreach', hv, himm.above_of_dominates hreach' hdom,
      fun habove => hnot ⟨?_, (himm.above_iff hreach).mp (.up hv habove)⟩⟩
    rintro rfl
    exact Nat.not_le.mpr (hrooted.lower hb hv) (habove.rank_le hrooted)

/-- If the entry is not entered again, the frontier of a block is where its dominance ends. -/
theorem Analyzed.mem_frontierOf_iff (hanalyzed : Analyzed graph)
    (hentry : ∀ p ∈ graph.predecessors entry, ¬graph.Reachable p) {r b : Nat} :
    b ∈ SSA.frontierOf graph r ↔ EndsAt graph r b := by
  by_cases hb : b = entry
  · subst hb
    refine iff_of_false (fun hmem => ?_) ?_
    · obtain ⟨p, hp, hedge⟩ := hanalyzed.frontier_entry hmem
      exact hentry p (hanalyzed.mirrored.mem_iff.mp hedge) hp
    · rintro ⟨-, ⟨p, hp, hreach, -⟩, -⟩
      exact hentry p hp hreach
  · exact (hanalyzed.frontier_iff hb r).trans (hanalyzed.inFrontier_iff_endsAt hb)

/-- The analysis finds, for every graph whose entry is not entered again, where the dominance
of each block ends. -/
theorem analyze_finds_frontiers (hmirror : graph.Mirrored) (hidx : graph.Indexed)
    (hentry : ∀ p ∈ graph.predecessors entry, ¬graph.Reachable p) :
    ∃ result, analyze graph = .ok result ∧ result.size = graph.size ∧
      ∀ r block, result.blocks[r]? = some block → block.frontier.Nodup ∧
        (∀ b, b ∈ block.frontier ↔ EndsAt graph r b) ∧
        (¬graph.Reachable r → block.frontier = []) := by
  rcases Nat.eq_zero_or_pos graph.size with hempty | hsize
  · exact ⟨_, analyze_empty hempty, hempty.symm, by simp⟩
  obtain ⟨result, hresult, hsame, hanalyzed⟩ := exists_analyze hmirror hidx hsize
  refine ⟨result, hresult, hsame.size, fun r block hblock => ?_⟩
  have hfrontier : SSA.frontierOf result r = block.frontier := by
    rw [SSA.frontierOf, hblock]
  have hmem (b : Nat) : b ∈ block.frontier ↔ EndsAt graph r b := by
    rw [← hfrontier, hanalyzed.mem_frontierOf_iff]
    · simp only [EndsAt, hsame.reachable_iff, hsame.dominates_iff, hsame.predecessors]
    · simpa only [hsame.reachable_iff, hsame.predecessors] using hentry
  refine ⟨hfrontier ▸ hanalyzed.frontier_nodup r, hmem, fun hunreached => ?_⟩
  refine List.eq_nil_iff_forall_not_mem.mpr fun b hb => ?_
  obtain ⟨-, ⟨p, -, hp, hdom⟩, -⟩ := (hmem b).mp hb
  exact hunreached (hdom.reachable hp)

/-- A block that leads to itself and, as another does, on to a join; a block that nothing
leads to has edges to the join and to the entry. -/
def forked : Graph where
  blocks := #[
    { index := 0, successors := [1, 2], predecessors := [4] },
    { index := 1, successors := [3], predecessors := [0] },
    { index := 2, successors := [3, 2], predecessors := [0, 2] },
    { index := 3, predecessors := [1, 2, 4] },
    { index := 4, successors := [3, 0] }]

theorem analyze_finds_frontiers_forked :
    forked.Mirrored ∧ forked.Indexed ∧ (∀ p ∈ forked.predecessors entry, ¬forked.Reachable p) ∧
      forked.Reachable 3 ∧ ¬forked.Dominates 2 3 := by
  have hparse : Graph.parse ("block 0 -> 1, 2\nblock 1 -> 3\nblock 2 -> 3, 2\n" ++
      "block 3\nblock 4 -> 3, 0\n") = .ok forked := by decide +kernel
  obtain ⟨hmirror, hidx⟩ := mirrored_and_indexed_of_parse hparse
  have hentry : ∀ p ∈ forked.predecessors entry, ¬forked.Reachable p := by
    intro p hp hreach
    obtain rfl := List.mem_singleton.mp hp
    obtain ⟨q, -, -, hedge⟩ := hreach.exists_predecessor (by decide)
    exact absurd (hmirror.mem_iff.mp hedge) List.not_mem_nil
  obtain ⟨result, hresult, -, hexact⟩ := analyze_finds_frontiers hmirror hidx hentry
  have hanalyze : (analyze forked).toOption.map (·.blocks.map (·.frontier)) =
      some #[[], [3], [2, 3], [], []] := by cbv
  have hfrontier (b : Nat) : result.blocks[b]?.map (·.frontier) =
      #[[], [3], [2, 3], [], []][b]? := by
    rw [hresult] at hanalyze
    rw [← Array.getElem?_map]
    exact congrArg (·[b]?) (Option.some.inj hanalyze)
  obtain ⟨two, htwo, hboth⟩ := Option.map_eq_some_iff.mp (hfrontier 2)
  obtain ⟨hreach, -, hends⟩ := ((hexact 2 two htwo).2.1 3).mp (hboth ▸ by decide)
  exact ⟨hmirror, hidx, hentry, hreach, fun hdom => hends ⟨by decide, hdom⟩⟩

end GraphJit.Dominance
