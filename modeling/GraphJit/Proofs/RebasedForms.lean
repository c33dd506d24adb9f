import GraphJit.Proofs.PhiLowering
import GraphJit.Proofs.RegisterRenaming
import GraphJit.Proofs.RewrittenOperations

/-! # Renaming over another table of locals

The passes that make locals never look at the numbers they get. As long as these are words
of 32 bits, a pass over the rebased graph gives the rebased result.
-/

namespace GraphJit.Rebasing

open SSA List

variable (r : Rebasing) {graph result : Graph} {b : Nat} {answer : Graph × Nat}
  {change : Block → Block} {locals : LocalTable}

/-! ## Static single assignment form -/

theorem insertZeroInits_graph (graph : Graph) (locals : List (Nat × ValueType)) :
    (r.graph graph).insertZeroInits (locals.map fun entry => (r.number entry.1, entry.2)) =
      r.graph (graph.insertZeroInits locals) := by
  simp only [Graph.insertZeroInits, Rebasing.graph]
  refine congrArg (Graph.mk · _) (r.modify_map (fun block => ?_) graph.blocks _)
  simp only [argumentLoads_block, operations_block, length_map]
  simp [Rebasing.block, Function.comp_def, Rebasing.operand, Operand.zero]

theorem state_startOf (graph : Graph) : r.state (startOf graph) = startOf (r.graph graph) := by
  refine congrArg (Renaming.mk _ _) ?_
  rw [size_graph]
  exact Array.map_replicate

/-- A graph over another table has the same static single assignment form, but for the numbers
of the locals. -/
theorem construct_graph (hbuild : construct graph = .ok result)
    (hfloor : r.floor ≤ graph.locals.count) (hroom : r.Room result.locals.count) :
    construct (r.graph graph) = .ok (r.graph result) := by
  obtain ⟨vars, hvars, ⟨rfl, rfl⟩ | ⟨hne, state, hrun, rfl⟩⟩ := of_construct_eq_ok hbuild
  · exact construct_eq_self ((r.collect_graph _).trans hvars)
  · have hlocals := locals_insertPhis graph vars (.ofGraph graph)
    have hrun' := (tracks_renameGraph (anyOperand vars graph.locals) graph r _ hrun).2.2
      (hlocals ▸ hfloor) hroom
    rw [state_startOf, ← insertPhis_graph, ← ofGraph_graph r graph] at hrun'
    rw [construct_eq_ok ((r.collect_graph _).trans hvars) hne hrun', ← insertZeroInits_graph]
    simp only [Rebasing.state, lookup_scope, Option.map_map, map_filterMap]
    rfl

/-! ## One local for each register -/

def assignment (assigned : List (GuestVariable × Nat)) : List (GuestVariable × Nat) :=
  assigned.map fun entry => (entry.1, r.number entry.2)

section

variable {vars : List GuestVariable} (hfloor : r.floor ≤ locals.count)
  (hroom : r.Room (locals.count + vars.length))
include hfloor hroom

theorem assign_table :
    GuestVariable.assign (r.table locals) vars = (r.assignment (GuestVariable.assign locals vars).1,
        r.table (GuestVariable.assign locals vars).2) := by
  induction vars generalizing locals with
  | nil => rfl
  | cons var rest ih =>
    rw [length_cons] at hroom
    have hcount := count_fresh locals var.type
    have hfresh := r.fresh_table var.type hfloor (by unfold Room at *; omega)
    have hrest := @ih (locals.fresh var.type).2 (by omega) (by unfold Room at *; omega)
    simp only [GuestVariable.assign, hfresh, hrest]
    rfl

theorem floor_le_of_mem_assign {entry : GuestVariable × Nat}
    (hentry : entry ∈ (GuestVariable.assign locals vars).1) : r.floor ≤ entry.2 := by
  have hbound : locals.count + vars.length ≤ twoPow 32 := Nat.le_trans (Nat.le_add_left ..) hroom
  have hmem : entry.2 ∈ List.range' locals.count vars.length :=
    map_snd_assign hbound ▸ mem_map_of_mem hentry
  exact Nat.le_trans hfloor (mem_range'_1.mp hmem).1

end

theorem renameRegister_operand (assigned : List (GuestVariable × Nat)) (opnd : Operand) :
    (r.operand opnd).renameRegister (r.assignment assigned) =
      r.operand (opnd.renameRegister assigned) := by
  cases opnd with
  | constant bits type => rfl
  | localVar id type => rfl
  | register reg type =>
    simp only [Rebasing.operand, Operand.renameRegister, assignment, find?_map, Function.comp_def]
    cases assigned.find? (·.1.register == reg) <;> rfl

theorem renameRegisters_operation (assigned : List (GuestVariable × Nat)) (op : Operation) :
    (r.operation op).renameRegisters (r.assignment assigned) =
      r.operation (op.renameRegisters assigned) := by
  simp [Operation.renameRegisters, Rebasing.operation, Function.comp_def, renameRegister_operand]

theorem argumentLocals_graph (graph : Graph) :
    (r.graph graph).argumentLocals = graph.argumentLocals.map r.number := by
  unfold Graph.argumentLocals
  rw [blocks_graph, Array.getElem?_map]
  cases graph.blocks[Graph.entry]? with
  | none => rfl
  | some block =>
    simp [filterMap_map, map_filterMap, Function.comp_def, Option.bind_map, Option.map_bind]

variable {graph : Graph} {vars : List GuestVariable}

section

variable (hfloor : r.floor ≤ graph.locals.count) (hroom : r.Room (graph.locals.count + vars.length))
include hfloor hroom

theorem withLocals_graph : withLocals (r.graph graph) vars = r.graph (withLocals graph vars) := by
  simp only [withLocals, locals_graph, r.assign_table hfloor hroom, blocks_graph]
  simp [Rebasing.graph, Rebasing.block, Function.comp_def, renameRegisters_operation]

theorem unloaded_graph : unloaded (r.graph graph) vars =
      (unloaded graph vars).map fun entry => (r.number entry.1, entry.2) := by
  simp only [unloaded, r.withLocals_graph hfloor hroom, locals_graph, r.assign_table hfloor hroom,
    argumentLocals_graph, assignment, filter_map, map_map]
  -- a new local is written by a load exactly if its new number is
  have hloaded : ∀ entry ∈ (GuestVariable.assign graph.locals vars).1,
      ((withLocals graph vars).argumentLocals.map r.number).contains (r.number entry.2) =
        (withLocals graph vars).argumentLocals.contains entry.2 := by
    intro entry hentry
    have hfresh := r.floor_le_of_mem_assign hfloor hroom hentry
    simp [contains_eq_mem, mem_map, r.number_eq_iff hfresh]
  exact congrArg (List.map fun pair => (r.number pair.2, pair.1.type))
    (filter_congr fun entry hentry => congrArg not (hloaded entry hentry))

end

theorem renameRegisters_eq_bind (graph : Graph) :
    graph.renameRegisters = GuestVariable.collect graph >>= fun vars =>
      .ok (if vars.isEmpty then graph
        else (withLocals graph vars).insertZeroInits (unloaded graph vars)) := by
  unfold Graph.renameRegisters
  refine bind_congr fun vars => ?_
  cases vars.isEmpty <;> rfl

/-- A graph over another table has the same renaming, but for the numbers of the locals. -/
theorem renameRegisters_graph (hfloor : r.floor ≤ graph.locals.count)
    (hroom : ∀ result, graph.renameRegisters = .ok result → r.Room result.locals.count) :
    (r.graph graph).renameRegisters = graph.renameRegisters.map r.graph := by
  rw [renameRegisters_eq_bind, collect_graph]
  rw [renameRegisters_eq_bind] at hroom ⊢
  cases hcollect : GuestVariable.collect graph with
  | error cause => rfl
  | ok vars =>
    rw [hcollect] at hroom
    refine congrArg Except.ok ?_
    have hresult := hroom _ rfl
    split at hresult
    next hempty => rw [if_pos hempty, if_pos hempty]
    next hempty =>
      have hcount : r.Room (graph.locals.count + vars.length) := count_assign _ vars ▸ hresult
      rw [if_neg hempty, if_neg hempty, r.withLocals_graph hfloor hcount,
        r.unloaded_graph hfloor hcount, insertZeroInits_graph]

/-! ## Removing phis -/

theorem bind_map {α β γ δ : Type} {first : Except Fault α} {first' : Except Fault β}
    {next : α → Except Fault γ} {next' : β → Except Fault δ} {image : α → β} {image' : γ → δ}
    (hfirst : first' = first.map image) (hnext : ∀ a, next' (image a) = (next a).map image') :
    (first' >>= next') = (first >>= next).map image' := by
  rw [hfirst]
  cases first with
  | error cause => rfl
  | ok a => exact hnext a

theorem addBlock_graph (graph : Graph) : (r.graph graph).addBlock = r.graph graph.addBlock := by
  simp [Graph.addBlock, Rebasing.graph, Rebasing.block, Graph.size]

theorem operation_relabel (src mid : Nat) (op : Operation) :
    relabel src mid (r.operation op) = r.operation (relabel src mid op) := by
  unfold relabel
  rw [isPhi_operation]
  split <;> rfl

theorem splitEdge_graph (graph : Graph) (src target : Nat) :
    (r.graph graph).splitEdge src target = (graph.splitEdge src target).map r.graph := by
  unfold Graph.splitEdge
  rw [addBlock_graph, size_graph]
  refine bind_map (r.modify_graph (fun block => ?_) _ _) fun graph => ?_
  · rfl
  refine bind_map (r.modify_graph (fun block => ?_) _ _) fun graph => ?_
  · refine congrArg (Block.mk _ · _ _ _ _) ?_
    rw [operations_block, map_map, map_map]
    exact map_congr_left fun op _ => r.operation_relabel src _ op
  refine r.modify_graph (fun block => ?_) graph _
  simp [Rebasing.block]

theorem splitCritical_graph (b : Nat) (graph : Graph) (preds : List Nat) :
    splitCritical b (r.graph graph) preds =
      (splitCritical b graph preds).map (Prod.map r.graph id) := by
  induction preds generalizing graph with
  | nil => rfl
  | cons p rest ih =>
    rw [splitCritical, splitCritical]
    refine bind_map (r.block_graph graph p) fun block => ?_
    rw [successors_block]
    split
    · refine bind_map (r.splitEdge_graph graph p b) fun graph => ?_
      exact bind_map (ih graph) fun _ => rfl
    · exact ih graph

theorem copyAtEnd_graph (temp : Operand) (graph : Graph) (input : Nat × Operand) :
    copyAtEnd (r.operand temp) (r.graph graph) (input.1, r.operand input.2) =
      (copyAtEnd temp graph input).map r.graph := by
  refine r.modify_graph (fun block => ?_) graph input.1
  simp only [insertionPoint_block, operations_block]
  simp [Rebasing.block, map_insertIdx]

theorem copies_graph (temp : Operand) (graph : Graph) (inputs : List (Nat × Operand)) :
    (inputs.map fun input => (input.1, r.operand input.2)).foldlM (copyAtEnd (r.operand temp))
        (r.graph graph) = (inputs.foldlM (copyAtEnd temp) graph).map r.graph := by
  induction inputs generalizing graph with
  | nil => rfl
  | cons input rest ih =>
    rw [map_cons, foldlM_cons, foldlM_cons]
    exact bind_map (r.copyAtEnd_graph temp graph input) ih

/-- Steps of the first kind are steps of the second one over the other table. -/
def Carries {σ : Type} (count : σ → Nat) (image : σ → σ) (first second : σ → Except Fault σ) :
    Prop :=
  ∀ ⦃state next : σ⦄, first state = .ok next → count state ≤ count next ∧
    (r.floor ≤ count state → r.Room (count next) → second (image state) = .ok (image next))

variable {r} in
theorem Carries.foldlM {σ α β : Type} {count : σ → Nat} {image : σ → σ} {convert : α → β}
    {first : σ → α → Except Fault σ} {second : σ → β → Except Fault σ}
    (hstep : ∀ a, r.Carries count image (first · a) (second · (convert a))) (items : List α) :
    r.Carries count image (items.foldlM first) ((items.map convert).foldlM second) := by
  induction items with
  | nil =>
    intro state next hrun
    cases hrun
    exact ⟨Nat.le_refl _, fun _ _ => rfl⟩
  | cons a rest ih =>
    intro state next hrun
    beta_reduce at hrun ⊢
    rw [foldlM_cons] at hrun
    obtain ⟨mid, hmiddle, hnext⟩ := of_bind hrun
    obtain ⟨hgrows, hruns⟩ := hstep a hmiddle
    obtain ⟨hgrows', hruns'⟩ := ih hnext
    refine ⟨Nat.le_trans hgrows hgrows', fun hfloor hroom => ?_⟩
    rw [map_cons, foldlM_cons]
    have hmiddle' := hruns hfloor (Nat.le_trans (Nat.add_le_add_left hgrows' _) hroom)
    exact bind_eq_ok.mpr ⟨image mid, hmiddle', hruns' (Nat.le_trans hfloor hgrows) hroom⟩

theorem locals_of_modify (hmodify : graph.modify b change = .ok result) :
    result.locals = graph.locals := by
  obtain ⟨-, rfl⟩ := Graph.of_modify_eq_ok hmodify
  rfl

theorem newLocal_graph (type : ValueType) (hfloor : r.floor ≤ graph.locals.count)
    (hroom : r.Room (graph.locals.count + 1)) : (r.graph graph).newLocal type =
      (r.operand (graph.newLocal type).1, r.graph (graph.newLocal type).2) := by
  simp only [Graph.newLocal, locals_graph, r.fresh_table type hfloor hroom]
  rfl

theorem carries_lowerPhi (b pos : Nat) (phi : Operation) :
    r.Carries (·.locals.count) r.graph (lowerPhi b pos · phi)
      (lowerPhi b pos · (r.operation phi)) := by
  intro graph next hrun
  beta_reduce at hrun ⊢
  cases hdest : phi.destination with
  | none =>
    simp only [lowerPhi, destination_operation, hdest] at hrun ⊢
    cases hrun
    exact ⟨Nat.le_refl _, fun _ _ => rfl⟩
  | some dest =>
    have hdest' : (r.operation phi).destination = some (r.operand dest) := by simp [hdest]
    rw [lowerPhi_eq hdest] at hrun
    obtain ⟨mid, hmiddle, hcopies⟩ := of_bind hrun
    have hlocals : next.locals = mid.locals :=
      foldlM_keeps (fun state : Graph => state.locals = mid.locals)
        (fun hstep hstate => (locals_of_modify hstep).trans hstate) hcopies rfl
    have hcount : next.locals.count = graph.locals.count + 1 := by
      rw [hlocals, locals_of_modify hmiddle]
      exact count_fresh ..
    refine ⟨by omega, fun hfloor hroom => ?_⟩
    rw [lowerPhi_eq hdest', type_operand, r.newLocal_graph dest.type hfloor (hcount ▸ hroom),
      inputs_operation]
    refine bind_eq_ok.mpr ⟨r.graph mid, r.modify_graph_eq_ok (fun block => ?_) hmiddle, ?_⟩
    · simp [Rebasing.block, map_set]
    · rw [copies_graph, hcopies]
      rfl

theorem carries_lowerPhis (b : Nat) (phis : List (Operation × Nat)) :
    r.Carries (·.locals.count) r.graph (lowerPhis b phis)
      (lowerPhis b (phis.map (Prod.map r.operation id))) :=
  Carries.foldlM (fun phi => r.carries_lowerPhi b phi.2 phi.1) phis

theorem locals_of_splitEdge {src target : Nat}
    (hsplit : graph.splitEdge src target = .ok result) : result.locals = graph.locals := by
  obtain ⟨first, hfirst, hsplit⟩ := of_bind hsplit
  obtain ⟨second, hsecond, hresult⟩ := of_bind hsplit
  rw [locals_of_modify hresult, locals_of_modify hsecond, locals_of_modify hfirst]
  rfl

theorem locals_of_splitCritical {preds : List Nat}
    (hsplit : splitCritical b graph preds = .ok answer) :
    answer.1.locals = graph.locals := by
  induction preds generalizing graph answer with
  | nil =>
    cases hsplit
    rfl
  | cons p rest ih =>
    rw [splitCritical] at hsplit
    obtain ⟨block, -, hsplit⟩ := of_bind hsplit
    split at hsplit
    · obtain ⟨next, hnext, hsplit⟩ := of_bind hsplit
      obtain ⟨last, hlast, hanswer⟩ := of_bind hsplit
      cases hanswer
      exact (ih hlast).trans (locals_of_splitEdge hnext)
    · exact ih hsplit

theorem splitBefore_graph (b : Nat) (graph : Graph) (block : Block) :
    splitBefore b (r.graph graph) (r.block block) =
      (splitBefore b graph block).map (Prod.map r.graph id) := by
  unfold splitBefore
  rw [predecessors_block, splitCritical_graph]
  split <;> rfl

theorem locals_of_splitBefore {block : Block} (hsplit : splitBefore b graph block = .ok answer) :
    answer.1.locals = graph.locals := by
  unfold splitBefore at hsplit
  split at hsplit
  · exact locals_of_splitCritical hsplit
  · cases hsplit
    rfl

theorem phisOf_block (block : Block) :
    phisOf (r.block block) = (phisOf block).map (Prod.map r.operation id) := by
  simp only [phisOf, operations_block, zipIdx_map, filter_map]
  rfl

theorem lowerBlock_graph (hlower : lowerBlock graph b = .ok answer) :
    graph.locals.count ≤ answer.1.locals.count ∧
      (r.floor ≤ graph.locals.count → r.Room answer.1.locals.count →
        lowerBlock (r.graph graph) b = .ok (r.graph answer.1, answer.2)) := by
  rw [lowerBlock_eq_bind] at hlower
  obtain ⟨block, hblock, hlower⟩ := of_bind hlower
  have hblock' : (r.graph graph).block b = .ok (r.block block) := by
    rw [block_graph, hblock]
    rfl
  rw [lowerBlock_eq_bind, hblock']
  change _ ∧ (_ → _ → (if (r.block block).hasPhi then _ else _) = _)
  rw [hasPhi_block]
  split at hlower
  next hphi =>
    rw [if_pos hphi]
    obtain ⟨⟨mid, splits⟩, hmiddle, hlower⟩ := of_bind hlower
    obtain ⟨home, hhome, hlower⟩ := of_bind hlower
    obtain ⟨result, hresult, rfl⟩ := map_eq_ok.mp hlower
    have hlocals : mid.locals = graph.locals := locals_of_splitBefore hmiddle
    obtain ⟨hgrows, hruns⟩ := r.carries_lowerPhis b (phisOf home) hresult
    refine ⟨hlocals ▸ hgrows, fun hfloor hroom => ?_⟩
    refine bind_eq_ok.mpr ⟨(r.graph mid, splits), by rw [splitBefore_graph, hmiddle]; rfl, ?_⟩
    refine bind_eq_ok.mpr ⟨r.block home, by rw [block_graph, hhome]; rfl, ?_⟩
    refine map_eq_ok.mpr ⟨r.graph result, ?_, rfl⟩
    rw [phisOf_block]
    exact hruns (Nat.le_trans hfloor (Nat.le_of_eq (congrArg LocalTable.count hlocals.symm))) hroom
  next hphi =>
    rw [if_neg hphi]
    cases hlower
    exact ⟨Nat.le_refl _, fun _ _ => rfl⟩

theorem carries_lowerNext (b : Nat) :
    r.Carries (fun state : Graph × Nat => state.1.locals.count) (Prod.map r.graph id)
      (lowerNext · b) (lowerNext · b) := by
  intro state next hrun
  obtain ⟨result, hresult, hnext⟩ := of_bind hrun
  cases hnext
  obtain ⟨hgrows, hruns⟩ := r.lowerBlock_graph hresult
  exact ⟨hgrows, fun hfloor hroom => bind_eq_ok.mpr ⟨_, hruns hfloor hroom, rfl⟩⟩

theorem carries_lowerAll (blocks : List Nat) :
    r.Carries (fun state : Graph × Nat => state.1.locals.count) (Prod.map r.graph id)
      (blocks.foldlM lowerNext) (blocks.foldlM lowerNext) := by
  have hall := @Carries.foldlM r _ _ _ _ _ id lowerNext lowerNext r.carries_lowerNext blocks
  rwa [map_id] at hall

/-- A graph over another table has the same copies for its phis, but for the numbers of the
temporaries. -/
theorem deconstruct_graph (hdecon : deconstruct graph = .ok answer)
    (hfloor : r.floor ≤ graph.locals.count) (hroom : r.Room answer.1.locals.count) :
    deconstruct (r.graph graph) = .ok (r.graph answer.1, answer.2) := by
  have hruns := (r.carries_lowerAll _ hdecon).2 hfloor hroom
  rw [← r.size_graph] at hruns
  exact hruns

end GraphJit.Rebasing
