import GraphJit.Compile.Pipeline
import GraphJit.Proofs.Analysis
import GraphJit.Proofs.Validation

/-! # Graphs that are ready for construction

A graph that was checked, freed of unreachable blocks and analysed. Every block is
reachable, and nothing goes back to the entry.
-/

namespace GraphJit

open GraphJit.Graph Dominance Validate

structure Prepared (graph : Graph) : Prop where
  analyzed : Analyzed graph
  reachable : ∀ b < graph.size, graph.Reachable b
  checked : ∀ ⦃b : Nat⦄ ⦃block : Block⦄, graph.blocks[b]? = some block → Checked block
  entry_free : graph.predecessors Graph.entry = []

theorem of_prepare {src pruned : Graph} {sig : Signature}
    (hpre : src.prepare sig = .ok pruned) : src.validate sig = .ok () ∧
      ∃ removed, src.removeUnreachable = .ok (pruned, removed) := by
  unfold Graph.prepare at hpre
  obtain ⟨⟨⟩, hvalid, hrest⟩ := of_bind hpre
  obtain ⟨⟨result, removed⟩, hremove, hresult⟩ := of_bind hrest
  cases hresult
  exact ⟨hvalid, removed, liftM_eq_ok hremove⟩

section

variable {src pruned : Graph} {sig : Signature} (hmirror : src.Mirrored) (hidx : src.Indexed)
  (hpre : src.prepare sig = .ok pruned)
include hmirror hidx hpre

theorem exists_prepared :
    ∃ result, analyze pruned = .ok result ∧ SameFlow pruned result ∧ Prepared result := by
  obtain ⟨hvalid, removed, hremove⟩ := of_prepare hpre
  obtain ⟨hsize, hcheck, hentry⟩ := of_validate hvalid
  obtain ⟨order, hpost, hprunes⟩ := exists_prunes hidx hmirror hsize hremove
  obtain ⟨result, hresult, hsame, hdoms⟩ := exists_analyze (hprunes.mirrored hmirror)
    (hprunes.indexed hidx) hprunes.nonempty
  refine ⟨result, hresult, hsame, hdoms, fun b hb => ?_, fun b block hblock => ?_, ?_⟩
  · exact hsame.reachable_iff.mpr (hprunes.reachable (hsame.size ▸ hb))
  · obtain ⟨kept, hkept, parent, frontier, rfl⟩ := hsame.cases hblock
    obtain ⟨a, old, -, hold, -, hkeeps⟩ := hprunes.exists_origin hkept
    obtain ⟨hterm, hshape, hloads, hphis, hret⟩ := (hcheck hold).of_keeps hkeeps
    exact ⟨hterm, hshape, hloads, hphis, hret⟩
  · rw [hsame.predecessors, List.eq_nil_iff_forall_not_mem]
    intro i hi
    have hzero : rankIn order Graph.entry = Graph.entry := rfl
    rw [← hzero, hprunes.predecessors_eq (hprunes.mem_iff.mpr .entry)] at hi
    obtain ⟨p, hp, hmem, -⟩ := mem_filterMap_kept?_iff.mp hi
    exact hentry hpost p hp hmem

theorem prepared_of_prepare {graph : Graph} (hanalyze : analyze pruned = .ok graph) :
    Prepared graph := by
  obtain ⟨result, hresult, -, hprep⟩ := exists_prepared hmirror hidx hpre
  rw [hanalyze] at hresult
  exact Except.ok.inj hresult ▸ hprep

end

end GraphJit
