import GraphJit.Proofs.Preparation
import GraphJit.Proofs.RenamedGraph

/-! # The constructed graph

Construction fails only at a register that is used in two ways. Otherwise each block
of the result holds the phis that the placement asked for and the operations of the
original block, renamed, and the entry clears the locals of registers that are read
before any definition.
-/

namespace GraphJit.SSA

open GraphJit.Graph Dominance DominatorTree List GuestVariable

variable {graph : Graph} {vars : List GuestVariable}

/-! ## The graph that is renamed -/

theorem known_of_mem (hvars : collect graph = .ok vars) {opnd : Operand}
    (hmem : opnd ∈ graph.operations.flatMap Operation.operands) : Known vars opnd := by
  have hacc := collect_eq_ok hvars
  rintro reg type rfl
  obtain ⟨var, hvar, rfl, -⟩ := hacc.covered hmem
  rw [GuestVariable.find?_eq_some hacc hvar]
  rfl

theorem mem_operations {b : Nat} {block : Block} {op : Operation}
    (hblock : graph.blocks[b]? = some block) (hop : op ∈ block.operations) :
    op ∈ graph.operations :=
  mem_flatMap.mpr ⟨block, mem_blocks_iff.mpr ⟨b, hblock⟩, hop⟩

theorem readable_emptyPhi (hvars : collect graph = .ok vars) {var : GuestVariable}
    (hvar : var ∈ vars) (preds : List Nat) : Readable vars (emptyPhi var preds) := by
  have hknown : Known vars (.register var.register var.type) := by
    rintro reg type h
    cases h
    rw [GuestVariable.find?_eq_some (collect_eq_ok hvars) hvar]
    rfl
  refine ⟨fun opnd hmem => ?_, fun _ => by simp [emptyPhi, Operation.phi]⟩
  obtain rfl : opnd = .register var.register var.type := by
    simp only [Operation.operands, emptyPhi, Operation.phi, Option.toList_some, map_map,
      mem_append, mem_singleton, mem_map] at hmem
    rcases hmem with rfl | ⟨p, -, rfl⟩ <;> rfl
  exact hknown

theorem isPhi_emptyPhi (var : GuestVariable) (preds : List Nat) : (emptyPhi var preds).isPhi := rfl

theorem labels_emptyPhi (var : GuestVariable) (preds : List Nat) :
    (emptyPhi var preds).labels = preds := by
  simp [emptyPhi, Operation.phi, Function.comp_def]

theorem inputs_emptyPhi (var : GuestVariable) (preds : List Nat) : (emptyPhi var preds).inputs =
      preds.map fun p => (p, .register var.register var.type) := by
  change List.zip (List.map _ (List.map _ _)) (List.map _ (List.map _ _)) = _
  rw [zip_map']
  exact map_id _

theorem mem_phisFor {b : Nat} {preds : List Nat} {op : Operation}
    (hop : op ∈ phisFor graph vars b preds) :
    ∃ var ∈ vars, b ∈ phiBlocks graph (ofGraph graph) var.register ∧ op = emptyPhi var preds := by
  obtain ⟨var, hvar, rfl⟩ := mem_map.mp hop
  obtain ⟨hmem, hphi⟩ := mem_filter.mp (mem_reverse.mp hvar)
  exact ⟨var, hmem, by simpa using hphi, rfl⟩

section

variable (hprep : Prepared graph) (hvars : collect graph = .ok vars)
include hprep hvars

theorem hasPhis : HasPhis graph vars (insertPhis graph vars (ofGraph graph)).1 :=
  (hasPhis_insertPhis (.of_analyzed hprep.analyzed) (collect_eq_ok hvars).nodup).1

theorem exists_withPhis {b : Nat} {block : Block}
    (hblock : (insertPhis graph vars (ofGraph graph)).1.blocks[b]? = some block) :
    ∃ old, graph.blocks[b]? = some old ∧ block = withPhis graph vars b old := by
  have hphis := hasPhis hprep hvars
  obtain ⟨old, hold⟩ := exists_block (hphis.size ▸ lt_size hblock)
  exact ⟨old, hold, Option.mem_unique hblock (hphis.kept hold)⟩

theorem renamable_insertPhis : Renamable vars (insertPhis graph vars (ofGraph graph)).1 := by
  refine ⟨fun b block hblock op hop => ?_, fun b block hblock succ hmem => ?_⟩
  all_goals obtain ⟨old, hold, rfl⟩ := exists_withPhis hprep hvars hblock
  · rcases mem_append.mp hop with hop | hop
    · obtain ⟨var, hvar, -, rfl⟩ := mem_phisFor hop
      exact readable_emptyPhi hvars hvar _
    · refine ⟨fun opnd hmem => known_of_mem hvars ?_, fun hphi => ?_⟩
      · exact mem_flatMap.mpr ⟨op, mem_operations hold hop, hmem⟩
      · exact ((hprep.checked hold).phis op hop hphi).2
  · rw [(hasPhis hprep hvars).size]
    exact hprep.analyzed.mirrored.lt_size_of_successor (successors_eq hold ▸ hmem)

theorem successors_insertPhis (b : Nat) :
    (insertPhis graph vars (ofGraph graph)).1.successors b = graph.successors b := by
  have hphis := hasPhis hprep hvars
  rcases Nat.lt_or_ge b graph.size with hb | hb
  · obtain ⟨block, hblock⟩ := exists_block hb
    rw [successors_eq hblock, successors_eq (hphis.kept hblock)]
    rfl
  · simp only [Graph.successors, hphis.blocks_none hb]

theorem labelled_insertPhis (hphis : ∀ op ∈ graph.operations, op.isPhi = false) :
    Labelled (insertPhis graph vars (ofGraph graph)).1 := by
  intro b block hblock op hop hphi label hlabel
  obtain ⟨old, hold, rfl⟩ := exists_withPhis hprep hvars hblock
  rw [successors_insertPhis hprep hvars, hprep.analyzed.mirrored.mem_iff, predecessors_eq hold]
  rcases mem_append.mp hop with hop | hop
  · obtain ⟨var, -, -, rfl⟩ := mem_phisFor hop
    rwa [labels_emptyPhi] at hlabel
  · rw [hphis op (mem_operations hold hop)] at hphi
    cases hphi

end

/-! ## What construction yields -/

/-- The copies that clear the locals of some variables. -/
def zeroInits (vars : List GuestVariable) (zeros : Scope) : List Operation :=
  (vars.filterMap fun var => (zeros.lookup var.register).map fun id => (id, var.type)).map
    fun (id, type) => .copy (.localVar id type) (.zero type)

/-- Put operations behind the argument loads. -/
def afterLoads (inits ops : List Operation) : List Operation :=
  ops.takeWhile (·.instruction.isLoadArgument) ++ inits ++
    ops.dropWhile (·.instruction.isLoadArgument)

/-- The scope that a block starts with. -/
def scopeAbove (graph : Graph) (out : Nat → Scope) (b : Nat) : Scope :=
  if b = entry then [] else ((parentOf graph b).map out).getD []

/-- The operations of a block with the phis of some variables, whose inputs are resolved. -/
def phisAndOperations (graph : Graph) (vars : List GuestVariable) (zeros : Scope)
    (out : Nat → Scope) (b : Nat) (block : Block) : List Operation :=
  (phisFor graph vars b block.predecessors ++ block.operations).map
    (mapInputs fun label => resolve zeros (out label))

/-- The result of construction, with the scope at the end of each block and the range of
numbers that its definitions take. -/
structure Constructed (graph : Graph) (vars : List GuestVariable) (zeros : Scope)
    (out : Nat → Scope) (span : Nat → Nat × Nat) (result : Graph) : Prop where
  size : result.size = graph.size
  floor : graph.locals.count ≤ result.locals.count
  cleared : Within graph.locals.count result.locals.count zeros
  distinct : Distinct zeros
  within : ∀ b, Within graph.locals.count result.locals.count (out b)
  blocks : ∀ ⦃b : Nat⦄ ⦃block : Block⦄, graph.blocks[b]? = some block → ∃ ops,
    result.blocks[b]? = some { block with
      operations := if b = entry then afterLoads (zeroInits vars zeros) ops
        else ops } ∧
    Renames zeros (span b).1 (span b).2 (scopeAbove graph out b)
      (phisAndOperations graph vars zeros out b block) ops (out b)
  fed : ∀ ⦃b : Nat⦄ ⦃block : Block⦄, graph.blocks[b]? = some block →
    ∀ op ∈ phisFor graph vars b block.predecessors, ∀ input ∈ op.inputs,
      Resolved zeros (out input.1) input.2
  spans : ∀ b < graph.size, graph.locals.count ≤ (span b).1 ∧ (span b).2 ≤ result.locals.count
  apart : ∀ b < graph.size, ∀ c < graph.size, b ≠ c →
    (span b).2 ≤ (span c).1 ∨ (span c).2 ≤ (span b).1

theorem afterLoads_nil (ops : List Operation) : afterLoads [] ops = ops := by
  rw [afterLoads, append_nil, takeWhile_append_dropWhile]

theorem drop_takeWhile {α : Type} (keep : α → Bool) (items : List α) :
    items.drop (items.takeWhile keep).length = items.dropWhile keep := by
  induction items with
  | nil => rfl
  | cons a rest ih => by_cases ha : keep a <;> simp [ha, ih]

theorem insertZeroInits_eq (graph : Graph) (locals : List (Nat × ValueType)) (b : Nat) :
    (graph.insertZeroInits locals).blocks[b]? = graph.blocks[b]?.map fun block => { block with
      operations := if b = entry then
          afterLoads (locals.map fun (id, type) => .copy (.localVar id type) (.zero type))
            block.operations
        else block.operations } := by
  unfold insertZeroInits
  rw [Array.getElem?_modify]
  by_cases hb : b = entry
  · subst hb
    simp [Block.argumentLoads, drop_takeWhile, afterLoads]
  · simp [hb, Ne.symm hb]

/-- What the operations of the result have in common with the original ones, however many
locals there are. -/
structure Resembles (graph result : Graph) : Prop where
  size : result.size = graph.size
  blocks : ∀ ⦃b : Nat⦄ ⦃block : Block⦄, graph.blocks[b]? = some block → ∃ operations,
    result.blocks[b]? = some { block with operations } ∧
    ∀ new ∈ operations, (∃ op ∈ block.operations, Reshapes op new) ∨
      (∃ var, Reshapes (emptyPhi var block.predecessors) new) ∨ new.instruction = .copy

namespace Resembles

variable {result : Graph} (hlike : Resembles graph result)
include hlike

theorem sameEdges : SameEdges graph result := by
  refine ⟨hlike.size, fun hblock => ?_⟩
  obtain ⟨ops, hresult, -⟩ := hlike.blocks hblock
  exact ⟨_, hresult, rfl, rfl, rfl⟩

/-- The annotations stay right. -/
theorem analyzed (hdoms : Analyzed graph) : Analyzed result := by
  have hsame := hlike.sameEdges
  refine hdoms.of_sameEdges hsame ?_ ?_ ?_
  · funext b
    unfold parentOf
    split
    next => rfl
    next =>
      rcases Nat.lt_or_ge b graph.size with hb | hb
      · obtain ⟨block, hblock⟩ := exists_block hb
        obtain ⟨ops, hresult, -⟩ := hlike.blocks hblock
        simp [hresult, hblock]
      · simp [hsame.blocks_none hb]
  · intro block hentry
    obtain ⟨old, hold⟩ : ∃ old, graph.blocks[entry]? = some old := exists_block hdoms.nonempty
    have hnone : old.immediateDominator = none := hdoms.entry_parent hold
    obtain ⟨ops, hresult, -⟩ := hlike.blocks hold
    obtain rfl := Option.mem_unique hentry hresult
    exact hnone
  · funext b
    rcases Nat.lt_or_ge b graph.size with hb | hb
    · obtain ⟨block, hblock⟩ := exists_block hb
      obtain ⟨ops, hresult, -⟩ := hlike.blocks hblock
      simp [frontierOf, hresult, hblock]
    · simp [frontierOf, hsame.blocks_none hb]

end Resembles

theorem resembles_self (graph : Graph) : Resembles graph graph :=
  ⟨rfl, fun _ block hblock => ⟨block.operations, hblock, fun op hop => .inl ⟨op, hop, .refl op⟩⟩⟩

theorem Resembles.insertZeroInits {mid : Graph} (hlike : Resembles graph mid)
    (locals : List (Nat × ValueType)) : Resembles graph (mid.insertZeroInits locals) := by
  refine ⟨?_, fun b block hblock => ?_⟩
  · rw [← hlike.size]
    exact Array.size_modify
  · obtain ⟨ops, hops, hold⟩ := hlike.blocks hblock
    refine ⟨_, by rw [insertZeroInits_eq, hops]; rfl, fun new hnew => ?_⟩
    split at hnew
    next =>
      rcases mem_append.mp hnew with hnew | hnew
      · rcases mem_append.mp hnew with hnew | hnew
        · exact hold new ((takeWhile_subset _) hnew)
        · obtain ⟨⟨id, type⟩, -, rfl⟩ := mem_map.mp hnew
          exact .inr (.inr rfl)
      · exact hold new ((dropWhile_subset _) hnew)
    next => exact hold new hnew

theorem resembles_of_reshaped {renamed : Graph}
    (hphis : HasPhis graph vars (insertPhis graph vars (ofGraph graph)).1)
    (hreshaped : Reshaped (insertPhis graph vars (ofGraph graph)).1 renamed) :
    Resembles graph renamed := by
  refine ⟨hreshaped.size.trans hphis.size, fun b block hblock => ?_⟩
  obtain ⟨ops, hops, hshapes⟩ := hreshaped.blocks (hphis.kept hblock)
  refine ⟨ops, hops, fun new hnew => ?_⟩
  obtain ⟨op, hop, hshape⟩ := exists_mem_of_forall₂ hshapes hnew
  rcases mem_append.mp hop with hop | hop
  · obtain ⟨var, -, -, rfl⟩ := mem_phisFor hop
    exact .inr (.inl ⟨var, hshape⟩)
  · exact .inl ⟨op, hop, hshape⟩

theorem scopeIn_eq_scopeAbove (hdoms : Analyzed graph) (scopes : Array Scope) (b : Nat) :
    scopeIn (ofGraph graph) scopes b = scopeAbove graph (scopeOut scopes) b := by
  unfold scopeAbove
  split
  next hb =>
    rw [hb]
    exact scopeIn_of_root (parents_entry hdoms) scopes
  next hb =>
    cases hparent : parentOf graph b with
    | none => exact scopeIn_of_root ((parents_of_ne hb).trans hparent) scopes
    | some parent => exact scopeIn_of_parent ((parents_of_ne hb).trans hparent) scopes

theorem constructed_of_renamed (hprep : Prepared graph) (hvars : collect graph = .ok vars)
    (hphis : ∀ op ∈ graph.operations, op.isPhi = false) {state : Renaming} {span : Nat → Nat × Nat}
    (hnamed : RenamedUpTo (insertPhis graph vars (ofGraph graph)).1 (ofGraph graph) state.zeros
      span (ofGraph graph).preorder state) :
    Constructed graph vars state.zeros (scopeOut state.scopes) span
      (state.graph.insertZeroInits (vars.filterMap fun var =>
        (state.zeros.lookup var.register).map fun id => (id, var.type))) := by
  have hins := hasPhis hprep hvars
  have hmem : ∀ b < graph.size, b ∈ (ofGraph graph).preorder := fun b hb =>
    (preorder_ofGraph hprep.analyzed).mem_iff.mpr (hprep.reachable b hb)
  have hlocals := hins.locals
  obtain ⟨hsize, -, hfloor, hclear, hdist, hwithin, -, hblocks, hfed, hspans, hapart⟩ := hnamed
  rw [hlocals] at hfloor hclear hwithin hspans
  have hlabels : ∀ {b : Nat} {block : Block}, graph.blocks[b]? = some block →
      ∀ op ∈ (withPhis graph vars b block).operations, op.isPhi → ∀ label ∈ op.labels,
        label ∈ (ofGraph graph).preorder := by
    intro b block hblock op hop hphi label hlabel
    have hpred := labelled_insertPhis hprep hvars hphis (hins.kept hblock) op hop hphi label hlabel
    exact hmem label (source_lt_size (successors_insertPhis hprep hvars label ▸ hpred))
  refine ⟨?_, hfloor, hclear, hdist, hwithin, fun b block hblock => ?_,
    fun b block hblock op hop input hinput => ?_,
    fun b hb => hspans b (hmem b hb), fun b hb c hc => hapart b (hmem b hb) c (hmem c hc)⟩
  · rw [← hins.size, ← hsize]
    exact Array.size_modify
  · obtain ⟨ops, hops, hren⟩ :=
      hblocks (hins.kept hblock) (hmem b (lt_size hblock))
    refine ⟨ops, by rw [insertZeroInits_eq, hops]; rfl, ?_⟩
    rw [scopeIn_eq_scopeAbove hprep.analyzed] at hren
    convert hren using 1
    refine map_congr_left fun op hop => mapInputs_congr fun hphi label hlabel => ?_
    funext src
    rw [feedFrom, if_pos (hlabels hblock op hop hphi label hlabel)]
  · have hop' : op ∈ (withPhis graph vars b block).operations := mem_append_left _ hop
    have hphi : op.isPhi := by
      obtain ⟨var, -, -, rfl⟩ := mem_phisFor hop
      rfl
    exact hfed (hins.kept hblock) op hop' hphi input hinput
      (hlabels hblock op hop' hphi input.1 (of_mem_zip hinput).1)

theorem construct_eq_self (hvars : collect graph = .ok []) : construct graph = .ok graph := by
  rw [construct, hvars]
  rfl

theorem construct_eq_ok (hvars : collect graph = .ok vars) (hne : vars ≠ []) {state : Renaming}
    (hrun : renameGraph vars (ofGraph graph)
      (startOf (insertPhis graph vars (ofGraph graph)).1) = .ok ((), state)) :
    construct graph = .ok (state.graph.insertZeroInits (vars.filterMap fun var =>
      (state.zeros.lookup var.register).map fun id => (id, var.type))) := by
  have hempty : vars.isEmpty = false := by simpa using hne
  rw [construct, hvars]
  change (if vars.isEmpty = true then _ else _) = _
  rw [hempty]
  change (liftM (renameGraph vars (ofGraph graph)
    (startOf (insertPhis graph vars (ofGraph graph)).1)) >>= _) = _
  rw [hrun]
  rfl

theorem resolve_nil (opnd : Operand) : resolve [] [] opnd = opnd := by
  cases opnd <;> rfl

theorem renames_self {ops : List Operation} (low : Nat) (hphis : ∀ op ∈ ops, op.isPhi = false)
    (hregs : ∀ op ∈ ops, ∀ opnd ∈ op.operands, opnd.register? = none) :
    Renames [] low low [] ops ops [] := by
  induction ops with
  | nil => exact .nil (Nat.le_refl low)
  | cons op rest ih =>
    have hsrcs : readSources [] [] op = op.sources := by
      rw [readSources, hphis op mem_cons_self]
      exact (map_congr_left fun opnd _ => resolve_nil opnd).trans (map_id _)
    have hnone := hregs op mem_cons_self
    have hkeep : RenamesOne [] low low [] op { op with sources := readSources [] [] op } [] := by
      refine .keep ?_ fun _ src hsrc reg type hreg => ?_
      · cases hdest : op.destination with
        | none => rfl
        | some opnd => exact hnone opnd (by simp [Operation.operands, hdest])
      · have := hnone src (mem_append_right _ hsrc)
        simp [hreg, Operand.register?] at this
    rw [hsrcs] at hkeep
    exact .cons (Nat.le_refl low) hkeep (ih (fun op hop => hphis op (.tail _ hop))
      fun op hop => hregs op (.tail _ hop))

theorem constructed_self (hvars : collect graph = .ok [])
    (hphis : ∀ op ∈ graph.operations, op.isPhi = false) :
    Constructed graph [] [] (fun _ => []) (fun _ => (graph.locals.count, graph.locals.count))
      graph := by
  have hnone : Distinct [] := fun _ _ _ h => by cases h
  refine ⟨rfl, Nat.le_refl _, .nil, hnone, fun _ => .nil, fun b block hblock => ?_,
    fun _ _ _ _ hop => absurd hop not_mem_nil,
    fun _ _ => ⟨Nat.le_refl _, Nat.le_refl _⟩, fun _ _ _ _ _ => .inl (Nat.le_refl _)⟩
  refine ⟨block.operations, ?_, ?_⟩
  · rw [show zeroInits [] [] = [] from rfl, afterLoads_nil, ite_self]
    exact hblock
  · have hops : phisAndOperations graph [] [] (fun _ => []) b block = block.operations := by
      refine (map_congr_left fun op hop => ?_).trans (map_id _)
      rw [mapInputs, hphis op (mem_operations hblock hop)]
      rfl
    have habove : scopeAbove graph (fun _ => []) b = [] := by
      unfold scopeAbove
      split
      next => rfl
      next => cases parentOf graph b <;> rfl
    rw [hops, habove]
    refine renames_self _ (fun op hop => hphis op (mem_operations hblock hop))
      fun op hop opnd hopnd => ?_
    cases opnd with
    | constant bits type => rfl
    | localVar id type => rfl
    | register reg type =>
      obtain ⟨var, hvar, -⟩ := (collect_eq_ok hvars).covered
        (mem_flatMap.mpr ⟨op, mem_operations hblock hop, hopnd⟩)
      simp at hvar

/-- Construction fails only at a register that is used in two ways. -/
theorem exists_construct (hprep : Prepared graph) : (∃ reg known used, construct graph =
        .error (.error (.unsupported (.mixedRegister reg known used))) ∧
      known.isInteger ≠ used.isInteger ∧
      .register reg known ∈ graph.operations.flatMap Operation.operands ∧
      .register reg used ∈ graph.operations.flatMap Operation.operands) ∨
    ∃ result, construct graph = .ok result ∧ Resembles graph result ∧
      ((∀ op ∈ graph.operations, op.isPhi = false) → result.locals.count ≤ twoPow 32 →
        ∃ vars zeros out span, collect graph = .ok vars ∧
          Constructed graph vars zeros out span result) := by
  cases hvars : collect graph with
  | error cause =>
    obtain ⟨reg, known, used, rfl, hmixed⟩ := collect_eq_error hvars
    refine .inl ⟨reg, known, used, ?_, hmixed⟩
    rw [construct, hvars]
    rfl
  | ok vars =>
    right
    by_cases hempty : vars = []
    · subst hempty
      exact ⟨graph, construct_eq_self hvars, resembles_self graph,
        fun hphis _ => ⟨_, _, _, _, rfl, constructed_self hvars hphis⟩⟩
    · have hins := hasPhis hprep hvars
      obtain ⟨state, hrun, hreshaped, -, hspec⟩ := exists_renameGraph hprep.analyzed
        hprep.reachable hins.size (renamable_insertPhis hprep hvars)
      refine ⟨_, construct_eq_ok hvars hempty hrun,
        (resembles_of_reshaped hins hreshaped).insertZeroInits _, fun hphis hbound => ?_⟩
      obtain ⟨span, hnamed⟩ := hspec (labelled_insertPhis hprep hvars hphis) hbound
      exact ⟨vars, _, _, span, rfl, constructed_of_renamed hprep hvars hphis hnamed⟩

/-! ## Definitions that reach a block

An edge into a block without a phi for a register carries the definition that is in
scope above the block: on the way down the tree from the parent of the block to the
source of the edge there is neither a definition nor a phi.
-/

variable {result : Graph} {zeros : Scope} {out : Nat → Scope} {span : Nat → Nat × Nat}

theorem destination_mapInputs (change : Nat → Operand → Operand) (op : Operation) :
    (mapInputs change op).destination = op.destination := by
  unfold mapInputs
  split <;> rfl

theorem Renames.lookup_eq {scope last : Scope} {low high : Nat} {ops new : List Operation}
    (hren : Renames zeros low high scope ops new last) {reg : GuestRegister}
    (hnot : ∀ op ∈ ops, ¬Defines op reg) : last.lookup reg = scope.lookup reg := by
  induction hren with
  | nil => rfl
  | cons _ hop _ ih =>
    rw [ih fun op hop => hnot op (.tail _ hop)]
    cases hop with
    | keep => rfl
    | @define defined type id hdest =>
      have hne : reg ≠ defined := by
        rintro rfl
        exact hnot _ List.mem_cons_self (by simp [Defines, hdest, Operand.register?])
      rw [lookup_cons, if_neg hne]

theorem scopeAbove_of_parent {b parent : Nat} (hb : b ≠ entry)
    (hparent : parentOf graph b = some parent) : scopeAbove graph out b = out parent := by
  rw [scopeAbove, if_neg hb, hparent]
  rfl

theorem scopeAbove_entry : scopeAbove graph out entry = [] := if_pos rfl

/-- What is in scope above a block is in scope at the end of its parent. -/
theorem exists_parent_of_lookup {b id : Nat} {reg : GuestRegister}
    (hid : (scopeAbove graph out b).lookup reg = some id) : ∃ parent, b ≠ entry ∧
      parentOf graph b = some parent ∧ (out parent).lookup reg = some id := by
  unfold scopeAbove at hid
  split at hid
  next => cases hid
  next hb =>
    cases hparent : parentOf graph b with
    | none =>
      rw [hparent] at hid
      cases hid
    | some parent => exact ⟨parent, hb, rfl, by rwa [hparent] at hid⟩

namespace Constructed

variable (hbuilt : Constructed graph vars zeros out span result) (hprep : Prepared graph)
include hbuilt hprep

/-- A block without a definition or a phi passes the scope above it on. -/
theorem lookup_out {c : Nat} (hc : c < graph.size) {reg : GuestRegister}
    (hdef : c ∉ definingBlocks graph (ofGraph graph) reg)
    (hphi : c ∉ phiBlocks graph (ofGraph graph) reg) :
    (out c).lookup reg = (scopeAbove graph out c).lookup reg := by
  obtain ⟨block, hblock⟩ := exists_block hc
  obtain ⟨ops, -, hren⟩ := hbuilt.blocks hblock
  refine hren.lookup_eq fun op hop hdefs => ?_
  obtain ⟨old, hold, rfl⟩ := List.mem_map.mp hop
  rw [Defines, destination_mapInputs] at hdefs
  rcases List.mem_append.mp hold with hold | hold
  · obtain ⟨var, -, hmem, rfl⟩ := mem_phisFor hold
    obtain rfl : var.register = reg := by
      simpa [emptyPhi, Operation.phi, Operand.register?] using hdefs
    exact hphi hmem
  · exact hdef ((mem_definingBlocks_iff hprep.analyzed.indexed).mpr
      ⟨(isReachable_iff hprep.analyzed).mpr (hprep.reachable c hc), block, hblock, old,
        hold, hdefs⟩)

theorem lookup_edge {p b : Nat} (hedge : graph.Edge p b) {reg : GuestRegister}
    (hphi : b ∉ phiBlocks graph (ofGraph graph) reg) :
    (scopeAbove graph out b).lookup reg = (out p).lookup reg := by
  have hdoms := hprep.analyzed
  obtain ⟨rank, hrooted, -⟩ := hdoms.immediate.rooted
  have hreach : ∀ {c}, c < graph.size → (parentOf graph c).isSome := fun hc =>
    hdoms.immediate.defined_iff.mpr (hprep.reachable _ hc)
  have hp : p < graph.size := source_lt_size hedge
  have hb : b ≠ entry := by
    rintro rfl
    have := hdoms.mirrored.mem_iff.mp hedge
    simp [hprep.entry_free] at this
  obtain ⟨v, hv⟩ := Option.isSome_iff_exists.mp (hreach (hdoms.mirrored.lt_size_of_successor hedge))
  rw [scopeAbove_of_parent hb hv]
  -- down the tree from the parent to the source of the edge
  have hchain : ∀ {c}, Above (parentOf graph) v c → Above (parentOf graph) c p →
      (out v).lookup reg = (out c).lookup reg := by
    intro c hvc
    induction hvc with
    | refl => exact fun _ => rfl
    | @up c d hparent hvd ih =>
      intro hcp
      by_cases hcv : c = v
      · rw [hcv]
      · have hvc : Above (parentOf graph) v c := .up hparent hvd
        have hne : c ≠ entry := by
          rintro rfl
          exact hcv (hvc.eq_root hrooted).symm
        have hnot : ¬Above (parentOf graph) c v := fun h => hcv (h.antisymm hrooted hvc)
        obtain ⟨hdef, hphi'⟩ := not_defined_between hdoms hb hedge
          (hprep.reachable p hp) hv hphi hcp hnot
        have hc : c < graph.size := (hdoms.immediate.defined_iff.mp
          (hparent ▸ rfl)).lt_size hdoms.mirrored hdoms.nonempty
        rw [ih (Above.trans (.up hparent .refl) hcp),
          hbuilt.lookup_out hprep hc hdef hphi', scopeAbove_of_parent hne hparent]
  exact hchain (hdoms.immediate.above_predecessor hb hv (hprep.reachable p hp) hedge) .refl

end Constructed

end GraphJit.SSA
