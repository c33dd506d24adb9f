import GraphJit.Proofs.GeneratedCode
import GraphJit.Proofs.Initialisation
import GraphJit.Proofs.ParsedGraphs
import GraphJit.Proofs.StrayUses

/-! # Faults of compilation

Nothing checks that the labels of phis name blocks. A label that names none is
looked up when unreachable blocks are dropped, when a local is checked that comes
in from there, and when a copy is put there. The main statement: compilation of a
graph read from text stops without a result exactly if such a label is looked up,
and so never if all labels name blocks. Sizes are bounded as far as they are
counted in words of 32 bits.
-/

namespace GraphJit

open GraphJit.Graph Dominance Validate List

/-! ## Checks -/

theorem faultless_refuse {cond : Prop} [Decidable cond] (cause : Unsupported) :
    Faultless (if cond then unsupported cause else .ok () : Outcome Unit) :=
  .ite (faultless_unsupported cause) (faultless_ok ())

theorem faultless_shape (block : Block) (op : Operation) : Faultless (Validate.shape block op) := by
  unfold Validate.shape
  -- the destination first, since it is looked at whatever the shape
  split
  · cases op.instruction.shape? with
    | none => exact faultless_unsupported _
    | some shape => exact Faultless.ite (faultless_error _) (faultless_error _)
  · cases op.instruction.shape? with
    | none => exact faultless_ok _
    | some shape => exact Faultless.ite (faultless_error _) (faultless_ok _)

theorem faultless_argumentLoad (sig : Signature) (block : Block) (loading : Bool)
    (op : Operation) (index : Nat) : Faultless (argumentLoad sig block loading op index) := by
  rw [argumentLoad]
  apply Faultless.ite _ (faultless_unsupported _)
  split
  · exact faultless_unsupported _
  · exact Faultless.ite (faultless_ok _) (faultless_unsupported _)

theorem faultless_particular (sig : Signature) (block : Block) (loading : Bool)
    (op : Operation) : Faultless (particular sig block loading op) := by
  rw [particular]
  split
  · exact faultless_argumentLoad _ _ _ _ _
  · exact faultless_refuse _
  · exact faultless_refuse _
  · exact faultless_refuse _
  · exact faultless_refuse _
  · exact faultless_refuse _
  · exact faultless_ok _

theorem faultless_operations (sig : Signature) (block : Block) (loading : Bool)
    (ops : List Operation) : Faultless (Validate.operations sig block loading ops) := by
  induction ops generalizing loading with
  | nil => exact faultless_ok _
  | cons op ops ih =>
    rw [Validate.operations]
    refine Faultless.ite (faultless_unsupported _) ?_
    refine (faultless_shape block op).bind fun _ _ => ?_
    exact (faultless_particular sig block loading op).bind fun _ _ => ih _

theorem faultless_block (graph : Graph) (sig : Signature) (block : Block) :
    Faultless (Validate.block graph sig block) := by
  refine Faultless.bind ?_ fun _ _ => ?_
  · rw [edges]
    refine Faultless.ite (faultless_unsupported _) ?_
    split
    · exact faultless_unsupported _
    · exact faultless_ok _
  · refine (faultless_operations sig block _ _).bind fun _ _ => ?_
    rw [ending]
    split
    · exact faultless_refuse _
    · exact faultless_refuse _

variable {graph : Graph} {sig : Signature} {opts : Options}

theorem faultless_validate (hmirror : graph.Mirrored) (sig : Signature) :
    Faultless (graph.validate sig) := by
  rw [Graph.validate]
  split
  next => exact faultless_unsupported _
  next hsize =>
    refine (Faultless.forM fun block _ => faultless_block graph sig block).bind ?_
    intro _ _
    obtain ⟨order, hpost, -⟩ := exists_postorder (Nat.pos_of_ne_zero hsize)
      fun h => hmirror.lt_size_of_successor h
    exact (faultless_liftM_fault hpost).bind fun _ _ => faultless_refuse _

/-! ## Dropping unreachable blocks -/

/-- There are blocks to drop, and a phi that is kept has an input from a block that does not
exist. -/
def Graph.StrayInput (graph : Graph) : Prop := (∃ b < graph.size, ¬graph.Reachable b) ∧
    ∃ b block, graph.Reachable b ∧ graph.blocks[b]? = some block ∧
      ∃ op ∈ block.operations, ¬LabelsIn graph.size op

theorem removeUnreachable_cases (hmirror : graph.Mirrored) (hidx : graph.Indexed)
    (hsize : 0 < graph.size) :
    (∃ answer, graph.removeUnreachable = .ok answer ∧ ¬graph.StrayInput) ∨
      (∃ cause, graph.removeUnreachable = .error cause) ∧ graph.StrayInput := by
  obtain ⟨order, hpost, horder⟩ := exists_postorder hsize fun h => hmirror.lt_size_of_successor h
  by_cases hall : ∀ b < graph.size, b ∈ order
  · refine .inl ⟨_, removeUnreachable_eq_self hpost hall, ?_⟩
    rintro ⟨⟨b, hb, hunreachable⟩, -⟩
    exact hunreachable ((horder b).mp (hall b hb))
  · cases hremove : graph.removeUnreachable with
    | ok answer =>
      refine .inl ⟨answer, rfl, ?_⟩
      rintro ⟨-, b, block, hreach, hblock, op, hop, hstray⟩
      exact hstray (labelsIn_of_removeUnreachable hidx hpost hall hremove hblock
        ((horder b).mpr hreach) op hop)
    | error cause =>
      refine .inr ⟨⟨cause, rfl⟩, ?_, ?_⟩
      · simpa only [not_forall, horder, exists_prop] using hall
      · by_contra hnone
        have hlabels : ∀ {b : Nat} {block : Block}, graph.blocks[b]? = some block →
            b ∈ order → ∀ op ∈ block.operations, LabelsIn graph.size op := by
          intro b block hblock hb op hop
          by_contra hstray
          exact hnone ⟨b, block, (horder b).mp hb, hblock, op, hop, hstray⟩
        rw [removeUnreachable_eq_ok hidx hmirror hpost hall hlabels] at hremove
        cases hremove

theorem faults_prepare_iff (hmirror : graph.Mirrored) (hidx : graph.Indexed) :
    Faults (graph.prepare sig) ↔ graph.validate sig = .ok () ∧ graph.StrayInput := by
  rw [Graph.prepare, faults_bind_iff, or_iff_right (faultless_validate hmirror sig)]
  constructor
  · rintro ⟨⟨⟩, hvalid, hfaults⟩
    refine ⟨hvalid, ?_⟩
    rcases removeUnreachable_cases hmirror hidx (of_validate hvalid).1 with
      ⟨answer, hremove, -⟩ | ⟨-, hstray⟩
    · rw [hremove] at hfaults
      exact absurd hfaults (faultless_ok _)
    · exact hstray
  · rintro ⟨hvalid, hstray⟩
    refine ⟨(), hvalid, ?_⟩
    rcases removeUnreachable_cases hmirror hidx (of_validate hvalid).1 with
      ⟨answer, -, hnone⟩ | ⟨⟨cause, hremove⟩, -⟩
    · exact absurd hstray hnone
    · rw [hremove]
      exact ⟨cause, rfl⟩

/-! ## Registers and phis -/

namespace SSA

theorem reshapes_renameRegisters (assigned : List (GuestVariable × Nat)) (op : Operation) :
    Reshapes op (op.renameRegisters assigned) where
  instruction := rfl
  labels := rfl
  sources := length_map ..
  destination := Option.isSome_map

/-- One local for each register leaves everything but operands as it is. -/
theorem resembles_of_renameRegisters {renamed : Graph}
    (hrename : graph.renameRegisters = .ok renamed) : Resembles graph renamed := by
  obtain ⟨vars, -, hrename⟩ := of_bind hrename
  split at hrename
  next =>
    cases hrename
    exact resembles_self graph
  next =>
    cases hrename
    apply Resembles.insertZeroInits
    refine ⟨Array.size_map, fun b block hblock => ?_⟩
    refine ⟨_, by rw [Array.getElem?_map, hblock]; rfl, fun new hnew => ?_⟩
    obtain ⟨op, hop, rfl⟩ := mem_map.mp hnew
    exact .inl ⟨op, hop, reshapes_renameRegisters _ op⟩

theorem faultless_construct (hprep : Prepared graph) : Faultless (construct graph) := by
  rcases exists_construct hprep with ⟨reg, known, used, hfails, -⟩ | ⟨result, hresult, -⟩
  · rw [hfails]
    exact faultless_error _
  · rw [hresult]
    exact faultless_ok result

variable {constructed : Graph} (hprep : Prepared graph) (hbuild : construct graph = .ok constructed)
include hprep hbuild

theorem resembles_of_construct : Resembles graph constructed := by
  rcases exists_construct hprep with ⟨reg, known, used, hfails, -⟩ | ⟨result, hresult, hlike, -⟩
  · rw [hfails] at hbuild
    cases hbuild
  · rw [hresult] at hbuild
    cases hbuild
    exact hlike

theorem faults_verify_construct_iff : Faults (verify constructed) ↔ StrayUse constructed := by
  have hlike := resembles_of_construct hprep hbuild
  refine faults_verify_iff (hlike.analyzed hprep.analyzed) (fun b hb => ?_) (hlike.phisFormed hprep)
  exact hlike.sameEdges.reachable_iff.mpr (hprep.reachable b (hlike.size ▸ hb))

end SSA

open SSA

theorem faults_intoLocals_iff (hprep : Prepared graph) :
    Faults (graph.intoLocals opts).outcome ↔ opts.ssa = true ∧
      ∃ constructed, construct graph = .ok constructed ∧ StrayUse constructed := by
  unfold Graph.intoLocals
  cases opts.ssa with
  | false =>
    refine iff_of_false (faultless_liftM_error graph.renameRegisters) ?_
    rintro ⟨⟨⟩, -⟩
  | true =>
    change Faults (construct graph >>= fun constructed =>
      verify constructed >>= fun _ => pure constructed) ↔ _
    rw [faults_bind_iff, or_iff_right (faultless_construct hprep), eq_self, true_and]
    refine exists_congr fun constructed => and_congr_right fun hbuild => ?_
    rw [← faults_verify_construct_iff hprep hbuild, faults_bind_iff]
    apply or_iff_left
    rintro ⟨-, -, hfaults⟩
    exact faultless_ok _ hfaults

/-- Replace guest registers by locals, in the way that the options ask for, without a check. -/
def Graph.withoutRegisters (opts : Options) (graph : Graph) : Outcome Graph :=
  if opts.ssa then construct graph else liftM graph.renameRegisters

section

variable {renamed : Graph} (hlocals : (graph.intoLocals opts).outcome = .ok renamed)
include hlocals

theorem withoutRegisters_of_intoLocals : graph.withoutRegisters opts = .ok renamed := by
  unfold Graph.intoLocals at hlocals
  unfold Graph.withoutRegisters
  cases hssa : opts.ssa with
  | false =>
    rw [hssa] at hlocals
    exact hlocals
  | true =>
    rw [hssa] at hlocals
    obtain ⟨constructed, hbuild, hrest⟩ := of_bind hlocals
    obtain ⟨-, -, hresult⟩ := of_bind hrest
    cases hresult
    exact hbuild

theorem of_intoLocals : construct graph = .ok renamed ∨ graph.renameRegisters = .ok renamed := by
  have hrenamed := withoutRegisters_of_intoLocals hlocals
  unfold Graph.withoutRegisters at hrenamed
  split at hrenamed
  · exact .inl hrenamed
  · exact .inr (of_liftM_eq_ok hrenamed)

end

theorem resembles_of_intoLocals {renamed : Graph} (hprep : Prepared graph)
    (hlocals : (graph.intoLocals opts).outcome = .ok renamed) : Resembles graph renamed :=
  (of_intoLocals hlocals).elim (resembles_of_construct hprep) resembles_of_renameRegisters

theorem faults_withoutPhis_iff (hmirror : graph.Mirrored) (hformed : graph.PhisFormed) :
    Faults graph.withoutPhis ↔ ∃ b, graph.StrayCopyAt b := by
  unfold Graph.withoutPhis
  rcases deconstruct_cases hmirror hformed with ⟨answer, hanswer, hnone⟩ | ⟨⟨cause, hcause⟩, hstray⟩
  · rw [hanswer]
    exact iff_of_false (faultless_ok _) hnone
  · rw [hcause]
    exact iff_of_true ⟨cause, rfl⟩ hstray

/-! ## The passes one after the other -/

theorem Traced.outcome_bind {α β : Type} (first : Traced α) (next : α → Traced β) :
    (first >>= next).outcome = first.outcome >>= fun a => (next a).outcome := by
  change (first.andThen next).outcome = _
  unfold Traced.andThen
  cases first.outcome <;> rfl

/-- A checked graph that has only reachable blocks, annotated. -/
def Graph.analyzed (sig : Signature) (graph : Graph) : Outcome Graph := do
  analyze (← graph.prepare sig)

/-- The graph that code is generated for. -/
def Graph.lowered (opts : Options) (sig : Signature) (graph : Graph) : Outcome Graph := do
  let graph ← graph.analyzed sig
  let graph ← (graph.intoLocals opts).outcome
  graph.withoutPhis

theorem lowered_eq {analyzed : Graph} (hanalyzed : graph.analyzed sig = .ok analyzed) :
    graph.lowered opts sig = (analyzed.intoLocals opts).outcome >>= Graph.withoutPhis := by
  unfold Graph.lowered
  rw [hanalyzed]
  rfl

theorem outcome_compileInto {α : Type} (deliver : CompiledFunction → α) (opts : Options)
    (sig : Signature) (graph : Graph) : (graph.compileInto deliver opts sig).outcome =
      graph.lowered opts sig >>= fun lowered =>
        Allocation.greedy none opts.convention lowered >>= fun alloc =>
          (lowered.generate opts alloc sig.arguments).map deliver := by
  unfold Graph.compileInto Graph.lowered Graph.analyzed
  simp only [Traced.outcome_bind, bind_assoc]
  rfl

theorem outcome_compile (opts : Options) (sig : Signature) (graph : Graph) :
    (graph.compile opts sig).outcome = graph.lowered opts sig >>= fun lowered =>
      Allocation.greedy none opts.convention lowered >>= fun alloc =>
        lowered.generate opts alloc sig.arguments := by
  simp only [Graph.compile, outcome_compileInto, Except.map_id, id]

/-- A label that names no block is looked up on the way to a graph without phis. -/
inductive StrayLabel (opts : Options) (sig : Signature) (graph : Graph) : Prop where
  | input (hvalid : graph.validate sig = .ok ()) (hstray : graph.StrayInput)
  | use {analyzed constructed : Graph} (hanalyzed : graph.analyzed sig = .ok analyzed)
      (hssa : opts.ssa = true) (hbuild : construct analyzed = .ok constructed)
      (hstray : StrayUse constructed)
  | copy {analyzed renamed : Graph} {b : Nat} (hanalyzed : graph.analyzed sig = .ok analyzed)
      (hlocals : (analyzed.intoLocals opts).outcome = .ok renamed)
      (hstray : renamed.StrayCopyAt b)

theorem faults_analyzed_iff (hmirror : graph.Mirrored) (hidx : graph.Indexed) :
    Faults (graph.analyzed sig) ↔ graph.validate sig = .ok () ∧ graph.StrayInput := by
  unfold Graph.analyzed
  rw [faults_bind_iff, faults_prepare_iff hmirror hidx]
  apply or_iff_left
  rintro ⟨pruned, hpre, hfaults⟩
  obtain ⟨result, hresult, -⟩ := exists_prepared hmirror hidx hpre
  exact faultless_liftM_fault hresult hfaults

theorem of_analyzed {result : Graph} (hmirror : graph.Mirrored) (hidx : graph.Indexed)
    (hanalyzed : graph.analyzed sig = .ok result) :
    ∃ pruned, graph.prepare sig = .ok pruned ∧ SameFlow pruned result ∧ Prepared result := by
  obtain ⟨pruned, hpre, hanalyze⟩ := of_bind hanalyzed
  obtain ⟨answer, hanswer, hsame, hprep⟩ := exists_prepared hmirror hidx hpre
  rw [hanswer] at hanalyze
  cases hanalyze
  exact ⟨pruned, hpre, hsame, hprep⟩

theorem faults_withoutPhis_of_intoLocals_iff {renamed : Graph} (hprep : Prepared graph)
    (hlocals : (graph.intoLocals opts).outcome = .ok renamed) :
    Faults renamed.withoutPhis ↔ ∃ b, renamed.StrayCopyAt b := by
  have hlike := resembles_of_intoLocals hprep hlocals
  exact faults_withoutPhis_iff (hlike.analyzed hprep.analyzed).mirrored (hlike.phisFormed hprep)

/-- The passes before allocation stop without a result exactly at a label that names no block. -/
theorem faults_lowered_iff (hmirror : graph.Mirrored) (hidx : graph.Indexed) :
    Faults (graph.lowered opts sig) ↔ StrayLabel opts sig graph := by
  have hprep {analyzed : Graph} (hanalyzed : graph.analyzed sig = .ok analyzed) :
      Prepared analyzed := by
    obtain ⟨-, -, -, hprep⟩ := of_analyzed hmirror hidx hanalyzed
    exact hprep
  unfold Graph.lowered
  constructor
  · intro hfaults
    -- the pass that faults is the first, the second or the third
    rcases faults_bind_iff.mp hfaults with hfaults | ⟨analyzed, hanalyzed, hfaults⟩
    · obtain ⟨hvalid, hstray⟩ := (faults_analyzed_iff hmirror hidx).mp hfaults
      exact .input hvalid hstray
    rcases faults_bind_iff.mp hfaults with hfaults | ⟨renamed, hlocals, hfaults⟩
    · obtain ⟨hssa, constructed, hbuild, hstray⟩ :=
        (faults_intoLocals_iff (hprep hanalyzed)).mp hfaults
      exact .use hanalyzed hssa hbuild hstray
    · obtain ⟨b, hstray⟩ :=
        (faults_withoutPhis_of_intoLocals_iff (hprep hanalyzed) hlocals).mp hfaults
      exact .copy hanalyzed hlocals hstray
  · intro hlabel
    rw [faults_bind_iff]
    cases hlabel with
    | input hvalid hstray =>
      exact .inl ((faults_analyzed_iff hmirror hidx).mpr ⟨hvalid, hstray⟩)
    | use hanalyzed hssa hbuild hstray =>
      refine .inr ⟨_, hanalyzed, faults_bind_iff.mpr (.inl ?_)⟩
      exact (faults_intoLocals_iff (hprep hanalyzed)).mpr ⟨hssa, _, hbuild, hstray⟩
    | copy hanalyzed hlocals hstray =>
      refine .inr ⟨_, hanalyzed, faults_bind_iff.mpr (.inr ⟨_, hlocals, ?_⟩)⟩
      exact (faults_withoutPhis_of_intoLocals_iff (hprep hanalyzed) hlocals).mpr ⟨_, hstray⟩

/-! ## Labels that name blocks -/

/-- The labels of all phis name blocks. -/
def Graph.LabelsNamed (graph : Graph) : Prop :=
  ∀ op ∈ graph.operations, op.isPhi → ∀ label ∈ op.labels, label < graph.size

instance (graph : Graph) : Decidable graph.LabelsNamed :=
  inferInstanceAs (Decidable (∀ op ∈ graph.operations, op.isPhi → ∀ label ∈ op.labels, label < _))

theorem mem_operations_iff {op : Operation} : op ∈ graph.operations ↔
    ∃ (b : Nat) (block : Block), graph.blocks[b]? = some block ∧ op ∈ block.operations := by
  constructor
  · intro hop
    obtain ⟨block, hblock, hmem⟩ := mem_flatMap.mp hop
    obtain ⟨b, hb⟩ := mem_blocks_iff.mp hblock
    exact ⟨b, block, hb, hmem⟩
  · rintro ⟨b, block, hblock, hmem⟩
    exact mem_operations hblock hmem

namespace Graph.LabelsNamed

theorem not_strayInput (hnamed : graph.LabelsNamed) : ¬graph.StrayInput := by
  rintro ⟨-, b, block, -, hblock, op, hop, hstray⟩
  refine hstray fun hphi input hinput => ?_
  exact hnamed op (mem_operations hblock hop) hphi input.1 (of_mem_zip hinput).1

theorem not_strayCopyAt (hnamed : graph.LabelsNamed) (b : Nat) : ¬graph.StrayCopyAt b := by
  rintro ⟨op, hop, label, hlabel, hstray⟩
  obtain ⟨block, hblock, hmem, hphi⟩ := mem_phis_iff.mp hop
  have hlt : label < graph.size := hnamed op (mem_operations hblock hmem) hphi label hlabel
  exact Nat.not_lt.mpr (hstray.trans' (graph.size_le_sizeAfterSplits _)) hlt

theorem not_strayUse (hnamed : graph.LabelsNamed) : ¬StrayUse graph := by
  rintro ⟨defs, -, hblocks⟩
  obtain ⟨block, hblock, hops⟩ := hblocks.exists_mem
  obtain ⟨⟨op, pos⟩, hop, hphi, -, hsrcs⟩ := hops.exists_mem
  obtain ⟨src, -, id, type, defn, label, -, -, hlabel, hstray⟩ := hsrcs.exists_mem
  obtain ⟨b, hb⟩ := mem_blocks_iff.mp hblock
  have hmem : op ∈ block.operations := fst_mem_of_mem_zipIdx hop
  have hlt : label < graph.size :=
    hnamed op (mem_operations hb hmem) hphi label (mem_of_getElem? hlabel)
  exact Nat.not_lt.mpr hstray hlt

theorem exists_of_mem_labels_keepOperation {order : List Nat} {op : Operation} {label : Nat}
    (hphi : op.isPhi) (hlabel : label ∈ (keepOperation order op).labels) :
    ∃ b ∈ order, label = rankIn order b := by
  rw [keepOperation, if_pos hphi] at hlabel
  obtain ⟨kept, hkept, rfl⟩ := mem_map.mp hlabel
  obtain ⟨input, -, hinput⟩ := mem_filterMap.mp hkept
  obtain ⟨new, hnew, rfl⟩ := Option.map_eq_some_iff.mp hinput
  unfold kept? at hnew
  split at hnew
  next hmem =>
    cases hnew
    exact ⟨input.1, hmem, rfl⟩
  next => cases hnew

variable (hnamed : graph.LabelsNamed)
include hnamed

/-- The labels that are kept are the new numbers of blocks that are kept. -/
theorem of_prepare {pruned : Graph} (hmirror : graph.Mirrored) (hidx : graph.Indexed)
    (hpre : graph.prepare sig = .ok pruned) : pruned.LabelsNamed := by
  obtain ⟨hvalid, removed, hremove⟩ := GraphJit.of_prepare hpre
  obtain ⟨hsize, -, -⟩ := of_validate hvalid
  obtain ⟨order, hpost, hprunes⟩ := exists_prunes hidx hmirror hsize hremove
  by_cases hall : ∀ b < graph.size, b ∈ order
  · rw [removeUnreachable_eq_self hpost hall] at hremove
    cases hremove
    exact hnamed
  · intro op hop hphi label hlabel
    rw [removeUnreachable_eq_ok hidx hmirror hpost hall
      (labelsIn_of_removeUnreachable hidx hpost hall hremove)] at hremove
    cases hremove
    obtain ⟨new, hnew, hmem⟩ := mem_flatMap.mp hop
    obtain ⟨block, -, hkeep⟩ := mem_filterMap.mp hnew
    unfold keepBlock? at hkeep
    split at hkeep
    next =>
      cases hkeep
      obtain ⟨old, -, rfl⟩ := mem_map.mp hmem
      have hold : old.isPhi := by
        simpa only [Operation.isPhi, keepOperation_instruction] using hphi
      obtain ⟨b, hb, rfl⟩ := exists_of_mem_labels_keepOperation hold hlabel
      exact hprunes.rank_lt hb
    next => cases hkeep

theorem of_sameFlow {result : Graph} (hsame : SameFlow graph result) : result.LabelsNamed := by
  intro op hop hphi label hlabel
  obtain ⟨b, block, hblock, hmem⟩ := mem_operations_iff.mp hop
  obtain ⟨old, hold, parent, frontier, rfl⟩ := hsame.cases hblock
  rw [hsame.size]
  exact hnamed op (mem_operations hold hmem) hphi label hlabel

/-- Phis keep their labels, and those that are placed are labelled by predecessors. -/
theorem of_resembles {result : Graph} (hmirror : graph.Mirrored)
    (hlike : Resembles graph result) : result.LabelsNamed := by
  intro op hop hphi label hlabel
  obtain ⟨b, block', hblock', hmem⟩ := mem_operations_iff.mp hop
  obtain ⟨block, hblock⟩ := exists_block (hlike.size ▸ lt_size hblock')
  obtain ⟨ops, hops, hshapes⟩ := hlike.blocks hblock
  obtain rfl := Option.mem_unique hblock' hops
  rw [hlike.size]
  rcases hshapes op hmem with ⟨old, hold, hshape⟩ | ⟨var, hshape⟩ | hcopy
  · exact hnamed old (mem_operations hblock hold) (hshape.isPhi ▸ hphi) label
      (hshape.labels ▸ hlabel)
  · rw [hshape.labels, labels_emptyPhi] at hlabel
    exact hmirror.lt_size_of_predecessor (predecessors_eq hblock ▸ hlabel)
  · simp [Operation.isPhi, hcopy] at hphi

theorem not_strayLabel (hmirror : graph.Mirrored) (hidx : graph.Indexed) :
    ¬StrayLabel opts sig graph := by
  -- labels stay good up to the phis that are looked at
  have hkept {analyzed result : Graph} (hanalyzed : graph.analyzed sig = .ok analyzed)
      (hlike : Prepared analyzed → Resembles analyzed result) : result.LabelsNamed := by
    obtain ⟨pruned, hpre, hsame, hprep⟩ := of_analyzed hmirror hidx hanalyzed
    have hpruned := hnamed.of_prepare hmirror hidx hpre
    exact (hpruned.of_sameFlow hsame).of_resembles hprep.analyzed.mirrored (hlike hprep)
  intro hlabel
  cases hlabel with
  | input hvalid hstray => exact hnamed.not_strayInput hstray
  | use hanalyzed hssa hbuild hstray =>
    exact (hkept hanalyzed fun h => resembles_of_construct h hbuild).not_strayUse hstray
  | copy hanalyzed hlocals hstray =>
    exact (hkept hanalyzed fun h => resembles_of_intoLocals h hlocals).not_strayCopyAt _ hstray

end Graph.LabelsNamed

/-! ## Compilation of a text -/

/-- The graph that code is generated for has no more than 2 ^ 20 locals, arguments and arguments
of a call, no local occurs 2 ^ 32 times in it, and its code has fewer than 2 ^ 63 bytes. -/
def Graph.SmallWhenLowered (opts : Options) (sig : Signature) (graph : Graph) : Prop :=
  ∀ lowered, graph.lowered opts sig = .ok lowered →
    Bounded lowered sig.arguments ∧ Allocation.UsesFit lowered ∧ lowered.weight < twoPow 48

/-- Allocation and generation always come to an end. -/
theorem faults_compile_iff (hsmall : graph.SmallWhenLowered opts sig) :
    Faults (graph.compile opts sig).outcome ↔ Faults (graph.lowered opts sig) := by
  rw [outcome_compile, faults_bind_iff]
  apply or_iff_left
  rintro ⟨lowered, hlowered, hfaults⟩
  obtain ⟨hbnd, hfit, hweight⟩ := hsmall lowered hlowered
  have hgreedy : Faultless (Allocation.greedy none opts.convention lowered) := by
    unfold Allocation.greedy
    rw [Allocation.useCounts_eq hfit]
    exact faultless_liftM_error _
  exact hgreedy.bind (fun alloc halloc => faultless_generate hbnd hweight halloc) hfaults

variable (opts sig) in
/-- Compilation of a graph read from text gives code or an error, unless it looks up a phi label
that names no block. So it always does if all labels name blocks. -/
theorem compile_parsed_faults_iff {text : String} (hparse : Graph.parse text = .ok graph)
    (hsmall : graph.SmallWhenLowered opts sig) :
    (Faults (graph.compile opts sig).outcome ↔ StrayLabel opts sig graph) ∧
      (graph.LabelsNamed → Faultless (graph.compile opts sig).outcome) := by
  obtain ⟨hmirror, hidx⟩ := mirrored_and_indexed_of_parse hparse
  have hiff : Faults (graph.compile opts sig).outcome ↔
      StrayLabel opts sig graph :=
    (faults_compile_iff hsmall).trans (faults_lowered_iff hmirror hidx)
  refine ⟨hiff, fun hnamed hfaults => ?_⟩
  exact hnamed.not_strayLabel hmirror hidx (hiff.mp hfaults)

/-- A loop that an unreachable block leads into as well. -/
def loopText : String := "block 0 -> 1\n  r0:i64 = load_arg 0\n  br\n" ++
  "block 1 -> 1, 2\n  l0:i64 = phi 1:i64 @0, l0:i64 @1, 7:i64 @3\n" ++
  "  r0:i64 = sub r0:i64, l0:i64\n  br_if.ne r0:i64, 0:i64\n" ++
  "block 2\n  ret r0:i64\nblock 3 -> 1\n  br\n"

def loopHead : Block where
  index := 0
  operations := [
    .compute (.loadArgument 0) (.guest 0) [],
    .branch]
  successors := [1]

def loopBody (inputs : List (Nat × Operand)) : Block where
  index := 1
  operations := [
    .phi (.localVar 0 .i64) inputs,
    .compute .sub (.guest 0) [.guest 0, .localVar 0 .i64],
    .branchIf .ne (.guest 0) (.constant 0 .i64)]
  successors := [1, 2]
  predecessors := inputs.map Prod.fst

def loopExit : Block where
  index := 2
  operations := [.ret (.guest 0)]
  predecessors := [1]

def loopGraph : Graph where
  blocks := #[
    loopHead,
    loopBody [(0, .constant 1 .i64), (1, .localVar 0 .i64), (3, .constant 7 .i64)],
    loopExit,
    { index := 3, operations := [.branch], successors := [1] }]
  locals := ⟨#[some .i64]⟩

theorem parse_loopText : Graph.parse loopText = .ok loopGraph := by decide +kernel

/-- What is left of the loop, with its dominators. -/
def analyzedLoop : Graph where
  blocks := #[
    loopHead,
    { loopBody [(0, .constant 1 .i64), (1, .localVar 0 .i64)] with
      immediateDominator := some 0
      frontier := [1] },
    { loopExit with immediateDominator := some 1 }]
  locals := ⟨#[some .i64]⟩

theorem compile_parsed_faults_iff_loop : Graph.parse loopText = .ok loopGraph ∧
      loopGraph.SmallWhenLowered {} ⟨[.i64], some .i64⟩ ∧ loopGraph.LabelsNamed ∧
      Faultless (loopGraph.compile {} ⟨[.i64], some .i64⟩).outcome := by
  have hparse := parse_loopText
  have hanalyzed : loopGraph.analyzed ⟨[.i64], some .i64⟩ = .ok analyzedLoop := by cbv
  have hsizes : ((analyzedLoop.intoLocals {}).outcome >>= Graph.withoutPhis).map
      (fun lowered => (lowered.locals.count, lowered.maxCallArguments?,
        decide (Allocation.UsesFit lowered), lowered.weight)) =
      .ok (6, none, true, 27) := by decide +kernel
  have hsmall : loopGraph.SmallWhenLowered {} ⟨[.i64], some .i64⟩ := by
    intro lowered hlowered
    rw [← lowered_eq hanalyzed, hlowered] at hsizes
    obtain ⟨hlocals, hcalls, hfit, hweight⟩ : lowered.locals.count = 6 ∧
        lowered.maxCallArguments? = none ∧ Allocation.UsesFit lowered ∧ lowered.weight = 27 := by
      simpa [Except.map] using hsizes
    refine ⟨⟨?_, ?_, by decide⟩, hfit, ?_⟩
    · rw [hlocals]
      decide
    · simp [hcalls]
    · rw [hweight]
      decide
  have hnamed : loopGraph.LabelsNamed := by decide
  exact ⟨hparse, hsmall, hnamed, (compile_parsed_faults_iff _ _ hparse hsmall).2 hnamed⟩

/-- A phi whose only input comes in from block 9, which does not exist. -/
def strayText : String := "block 0 -> 1\n  br\nblock 1\n  l0:i64 = phi 5:i64 @9\n  ret l0:i64\n"

def strayGraph (parent : Option Nat) : Graph where
  blocks := #[
    { index := 0, operations := [.branch], successors := [1] },
    { index := 1
      operations := [
        .phi (.localVar 0 .i64) [(9, .constant 5 .i64)],
        .ret (.localVar 0 .i64)]
      predecessors := [0]
      immediateDominator := parent }]
  locals := ⟨#[some .i64]⟩

/-- The text passes all checks, and then the copy of the constant has no block to go to. -/
theorem compile_strayText_faults : Graph.parse strayText = .ok (strayGraph none) ∧
      (strayGraph none).validate ⟨[], some .i64⟩ = .ok () ∧
      ((strayGraph none).compile {} ⟨[], some .i64⟩).outcome = .error (.fault .indexOutOfRange) := by
  refine ⟨by decide +kernel, by cbv, ?_⟩
  have hanalyzed : (strayGraph none).analyzed ⟨[], some .i64⟩ = .ok (strayGraph (some 0)) := by cbv
  have hlowered : (((strayGraph (some 0)).intoLocals {}).outcome >>= Graph.withoutPhis) =
      .error (.fault .indexOutOfRange) := by decide +kernel
  rw [outcome_compile, lowered_eq hanalyzed, hlowered]
  rfl

end GraphJit
