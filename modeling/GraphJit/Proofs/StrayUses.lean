import GraphJit.Proofs.DominatorTree
import GraphJit.Proofs.StrayCopies
import GraphJit.SSA.Verify

/-! # Phi inputs from blocks that do not exist

Verification looks a phi's label up when it checks a local that comes in from there.
It stops without an answer exactly if everything before that check has passed and the
label names no block.
-/

namespace GraphJit.SSA

open GraphJit.Graph DominatorTree Dominance

/-- A source of a phi is a defined local that comes in from a block that does not exist. -/
def FromNowhere (graph : Graph) (defs : Definitions) (op : Operation)
    (src : Operand × Nat) : Prop :=
  ∃ id type defn label, src.1 = .localVar id type ∧
    defs.lookup id = some defn ∧ op.labels[src.2]? = some label ∧
    graph.size ≤ label

/-- The checks pass up to an input from a block that does not exist. -/
def StrayUse (graph : Graph) : Prop := ∃ defs, noteDefinitions graph = .ok defs ∧
    PassesUpTo
      (fun block => block.operations.zipIdx.forM fun (op, pos) =>
        checkOperation (ofGraph graph) defs block op pos)
      (fun block => PassesUpTo
        (fun (op, pos) => checkOperation (ofGraph graph) defs block op pos)
        (fun (op, pos) => op.isPhi ∧ op.labels.length = block.predecessors.length ∧ PassesUpTo
            (fun (src, k) =>
              checkSource (ofGraph graph) defs block.index pos op src k)
            (FromNowhere graph defs op) op.sources.zipIdx)
        block.operations.zipIdx)
      graph.blocks.toList

variable {graph : Graph} {defs : Definitions}

theorem faultless_noteDefinition (b : Nat) (defs : Definitions) (op : Operation)
    (pos : Nat) : Faultless (noteDefinition b defs op pos) := by
  unfold noteDefinition
  split
  next => exact faultless_error _
  next => exact Faultless.ite (faultless_error _) (faultless_ok _)
  next => exact faultless_ok _

theorem faultless_noteDefinitions (graph : Graph) : Faultless (noteDefinitions graph) :=
  Faultless.foldlM fun _ block _ => Faultless.foldlM fun defs (op, pos) _ =>
    faultless_noteDefinition block.index defs op pos

variable (graph) in
theorem reaches_eq_error_iff (b pos : Nat) (defn : Nat × Nat) {op : Operation} {k : Nat}
    (hlabel : op.isPhi → ∃ label, op.labels[k]? = some label) :
    (∃ cause, reaches (ofGraph graph) b pos op k defn = .error cause) ↔
      op.isPhi ∧ ∃ label, op.labels[k]? = some label ∧ graph.size ≤ label := by
  unfold reaches
  cases hphi : op.isPhi with
  | false =>
    simp only [Bool.false_eq_true, if_false, false_and, iff_false]
    split <;> simp
  | true =>
    obtain ⟨label, hsome⟩ := hlabel hphi
    simp only [if_true, hsome, true_and, Option.some.injEq, exists_eq_left']
    rw [← size_enter graph]
    rcases Nat.lt_or_ge label (ofGraph graph).enter.size with hlt | hge
    · simp [hlt]
    · simp [hge]

theorem faults_checkSource_iff {b pos k : Nat} {op : Operation} {src : Operand}
    (hlabel : op.isPhi → ∃ label, op.labels[k]? = some label) :
    Faults (checkSource (ofGraph graph) defs b pos op src k) ↔
      op.isPhi ∧ FromNowhere graph defs op (src, k) := by
  cases src with
  | constant bits type => simp [checkSource, FromNowhere, Faults, pure, Except.pure]
  | register reg type => simp [checkSource, FromNowhere, Faults, violation]
  | localVar id type =>
    cases hlookup : defs.lookup id with
    | none => simp [checkSource, FromNowhere, Faults, violation, hlookup]
    | some defn =>
      have hmeets := reaches_eq_error_iff graph b pos defn hlabel
      have hnowhere : FromNowhere graph defs op (.localVar id type, k) ↔
          ∃ label, op.labels[k]? = some label ∧ graph.size ≤ label := by
        constructor
        · rintro ⟨_, _, _, label, -, -, hfound, hge⟩
          exact ⟨label, hfound, hge⟩
        · rintro ⟨label, hfound, hge⟩
          exact ⟨id, type, defn, label, rfl, hlookup, hfound, hge⟩
      rw [hnowhere, ← hmeets]
      simp only [checkSource, hlookup]
      cases reaches (ofGraph graph) b pos op k defn with
      | error cause => exact ⟨fun _ => ⟨cause, rfl⟩, fun _ => ⟨cause, rfl⟩⟩
      | ok reached =>
        refine ⟨fun hfaults => ?_, by simp⟩
        cases reached
        · exact absurd hfaults (faultless_error _)
        · exact absurd hfaults (faultless_ok _)

theorem faults_checkOperation_iff {block : Block} {op : Operation} {pos : Nat}
    (hlength : op.isPhi → op.labels.length = op.sources.length) :
    Faults (checkOperation (ofGraph graph) defs block op pos) ↔
      op.isPhi ∧ op.labels.length = block.predecessors.length ∧ PassesUpTo (fun (src, k) =>
            checkSource (ofGraph graph) defs block.index pos op src k)
          (FromNowhere graph defs op) op.sources.zipIdx := by
  -- a phi has as many labels as sources, so looking up a label never fails by itself
  have hlabel : ∀ {k : Nat} {src : Operand}, (src, k) ∈ op.sources.zipIdx → op.isPhi →
      ∃ label, op.labels[k]? = some label := by
    intro k src hsrc hphi
    have hk := (List.getElem?_eq_some_iff.mp (List.mk_mem_zipIdx_iff_getElem?.mp hsrc)).1
    exact ⟨_, List.getElem?_eq_getElem (hlength hphi ▸ hk)⟩
  have hchecks : Faults (op.sources.zipIdx.forM fun (src, k) =>
        checkSource (ofGraph graph) defs block.index pos op src k) ↔
      op.isPhi ∧ PassesUpTo (fun (src, k) =>
          checkSource (ofGraph graph) defs block.index pos op src k)
        (FromNowhere graph defs op) op.sources.zipIdx := by
    rw [faults_forM_iff, ← PassesUpTo.and_left_iff]
    exact PassesUpTo.congr fun (src, k) hsrc => faults_checkSource_iff (hlabel hsrc)
  by_cases hcount : op.isPhi ∧ op.labels.length ≠ block.predecessors.length
  · have hfails : (op.isPhi && op.labels.length != block.predecessors.length) = true := by
      simpa using hcount
    simp only [checkOperation, hfails, if_true]
    exact ⟨fun h => absurd h (faultless_error _), fun h => absurd h.2.1 hcount.2⟩
  · have hpasses : (op.isPhi && op.labels.length != block.predecessors.length) = false := by
      simpa using hcount
    simp only [checkOperation, hpasses, Bool.false_eq_true, if_false]
    refine hchecks.trans (and_congr_right fun hphi => ?_)
    have heq : op.labels.length = block.predecessors.length := by
      by_contra hne
      exact hcount ⟨hphi, hne⟩
    exact (and_iff_right heq).symm

/-- Verification stops without an answer exactly at a phi input from nowhere. -/
theorem faults_verify_iff (hdoms : Analyzed graph) (hreach : ∀ b < graph.size, graph.Reachable b)
    (hformed : graph.PhisFormed) : Faults (verify graph) ↔ StrayUse graph := by
  have hall : (graph.blocks.toList.filter fun block => (ofGraph graph).isReachable block.index) =
      graph.blocks.toList := by
    refine List.filter_eq_self.mpr fun block hmem => ?_
    obtain ⟨b, hblock⟩ := mem_blocks_iff.mp hmem
    have hindex : block.index = b := hdoms.indexed hblock
    rw [hindex]
    exact (isReachable_iff hdoms).mpr (hreach b (lt_size hblock))
  rw [verify, faults_bind_iff, or_iff_right (faultless_noteDefinitions graph), hall, StrayUse]
  refine exists_congr fun defs => and_congr_right fun _ => ?_
  rw [faults_forM_iff]
  refine PassesUpTo.congr fun block hmem => ?_
  rw [faults_forM_iff]
  refine PassesUpTo.congr fun (op, pos) hsite => faults_checkOperation_iff fun hphi => ?_
  obtain ⟨b, hblock⟩ := mem_blocks_iff.mp hmem
  have hop : op ∈ block.operations :=
    List.mem_of_getElem? (List.mk_mem_zipIdx_iff_getElem?.mp hsite)
  exact (hformed b op (mem_phis_iff.mpr ⟨block, hblock, hop, hphi⟩)).2

end GraphJit.SSA
