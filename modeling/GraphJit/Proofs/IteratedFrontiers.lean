import GraphJit.Proofs.CompilationFaults

/-! # Phis are placed on iterated frontiers

The analysis lists the frontier of every block without repetition, whatever the
edges are. That is all that the placement of phis relies on: a block gets one phi
of each variable that needs one there, ahead of all it had.
-/

namespace GraphJit.SSA

open Dominance DominatorTree GraphJit.Graph GuestVariable List

variable {src graph : Graph} {vars : List GuestVariable}

theorem annotated_of_analyze (hidx : src.Indexed) (hanalyze : analyze src = .ok graph) :
    SameFlow src graph ∧ Annotated graph := by
  obtain ⟨idoms, -, hgraph⟩ := of_bind hanalyze
  obtain rfl : annotate src idoms = graph := Except.ok.inj hgraph
  have hsame := sameFlow_annotate idoms hidx
  refine ⟨hsame, hsame.indexed hidx, fun {b r} hb => ?_, fun r =>
    (frontierOf_annotate idoms hidx r).1⟩
  obtain ⟨-, block, hblock, -⟩ := ((frontierOf_annotate idoms hidx r).2 b).mp hb
  exact hsame.size ▸ lt_size hblock

/-- A variable has a phi at the head of exactly the blocks of the least set closed under
frontiers, with one input for each predecessor. The worklist gets there by itself, and all
phis are counted. -/
theorem insertPhis_places_iterated_frontiers (hidx : src.Indexed)
    (hanalyze : analyze src = .ok graph) (hcollect : collect graph = .ok vars) :
    ∃ placed inserted, insertPhis graph vars (ofGraph graph) = (placed, inserted) ∧
      (∀ reg, Fills (frontierOf graph) (definingBlocks graph (ofGraph graph) reg) []
        (phiBlocks graph (ofGraph graph) reg)) ∧
      placed.locals = graph.locals ∧ placed.size = graph.size ∧
      (∀ b block, graph.blocks[b]? = some block → ∃ needed : List GuestVariable,
        needed.Nodup ∧ (∀ var, var ∈ needed ↔ var ∈ vars ∧ NeedsPhi graph var.register b) ∧
        ∃ phis, phis = needed.map (fun var => Operation.phi (.register var.register var.type)
            (block.predecessors.map fun p => (p, .register var.register var.type))) ∧
          placed.blocks[b]? = some { block with operations := phis ++ block.operations }) ∧
      placed.operations.length = graph.operations.length + inserted ∧
      (src.Mirrored → ∀ b < graph.size, (ofGraph graph).isReachable b ↔ graph.Reachable b) := by
  obtain ⟨hsame, hannotated⟩ := annotated_of_analyze hidx hanalyze
  have hnodup := (collect_eq_ok hcollect).nodup
  obtain ⟨hphis, hcount⟩ := hasPhis_insertPhis hannotated hnodup
  refine ⟨_, _, rfl, fun reg => (fills_phiBlocks hannotated reg).1, hphis.locals,
    hphis.size, fun b block hblock => ⟨_, ?_, fun var => ?_, _, rfl, hphis.kept hblock⟩, hcount, ?_⟩
  · exact nodup_reverse.mpr (hnodup.of_map.filter _)
  · simp [mem_phiBlocks_iff hannotated]
  · intro hmirror b hb
    obtain ⟨result, hresult, -, hanalyzed⟩ :=
      exists_analyze hmirror hidx (hsame.size ▸ Nat.zero_lt_of_lt hb)
    obtain rfl := Except.ok.inj (hresult.symm.trans hanalyze)
    exact isReachable_iff hanalyzed

theorem insertPhis_places_iterated_frontiers_loop :
    loopGraph.Indexed ∧ ∃ graph vars placed, analyze loopGraph = .ok graph ∧
      collect graph = .ok vars ∧ insertPhis graph vars (ofGraph graph) = (placed, 1) ∧
      placed.operations.length = graph.operations.length + 1 := by
  obtain ⟨hmirror, hidx⟩ := mirrored_and_indexed_of_parse parse_loopText
  obtain ⟨graph, hanalyze, -⟩ := exists_analyze hmirror hidx (by decide)
  have hvars : (analyze loopGraph).map collect = .ok (.ok [⟨⟨.integer, 0⟩, .i64⟩]) := by cbv
  have hone : (analyze loopGraph).map (fun graph =>
      (insertPhis graph [⟨⟨.integer, 0⟩, .i64⟩] (ofGraph graph)).2) = .ok 1 := by cbv
  rw [hanalyze] at hvars hone
  obtain ⟨placed, inserted, hinsert, -, -, -, -, hcount, -⟩ :=
    insertPhis_places_iterated_frontiers hidx hanalyze (Except.ok.inj hvars)
  obtain rfl : inserted = 1 := by
    simpa only [Except.map, Except.ok.injEq, hinsert] using hone
  exact ⟨hidx, graph, _, placed, hanalyze, Except.ok.inj hvars, hinsert, hcount⟩

end GraphJit.SSA
