import GraphJit.Proofs.RenamedExecution
import Mathlib.Data.List.TakeWhile
import Mathlib.Data.List.Permutation

/-! # Construction keeps the meaning of a graph

The original and the constructed graph run in step, block by block. What the second
run does on its own is to clear, in the entry block, the locals of registers that may
be read before they are written.
-/

namespace GraphJit.SSA

open GraphJit.Graph Dominance DominatorTree Machine List GuestVariable

variable {Value Memory : Type} {interp : Interpretation Value Memory} {args : List Value}
  {graph result : Graph} {vars : List GuestVariable} {zeros : Scope} {out : Nat → Scope}
  {span : Nat → Nat × Nat}

/-- The variables that get a phi in a block, in the order of the phis. -/
def phiVars (graph : Graph) (vars : List GuestVariable) (b : Nat) : List GuestVariable :=
  (vars.filter fun var => (phiBlocks graph (ofGraph graph) var.register).contains b).reverse

variable {scope last : Scope} {b floor : Nat} {op : Operation}
  {ops new inserted : List Operation} {block : Block} {reg : GuestRegister}
  {arrival : Option (Nat × State Value Memory)} {events : List (Machine.Event Value Memory)}

theorem mem_phiVars_iff {var : GuestVariable} : var ∈ phiVars graph vars b ↔
      var ∈ vars ∧ b ∈ phiBlocks graph (ofGraph graph) var.register := by
  simp [phiVars]

theorem phisAndOperations_eq (hphis : ∀ op ∈ block.operations, op.isPhi = false) (b : Nat) :
    phisAndOperations graph vars zeros out b block =
      (phiVars graph vars b).map (fedPhi zeros out block.predecessors) ++ block.operations := by
  rw [phisAndOperations, map_append]
  congr 1
  · rw [phisFor, map_map]
    rfl
  · refine (map_congr_left fun op hop => ?_).trans (map_id _)
    rw [mapInputs, hphis op hop]
    rfl

/-- A register that gets a phi somewhere is written somewhere. -/
theorem exists_defines_of_mem_phiBlocks (hdoms : Analyzed graph)
    (hphi : b ∈ phiBlocks graph (ofGraph graph) reg) :
    ∃ op ∈ graph.operations, Defines op reg := by
  rw [mem_phiBlocks_iff (.of_analyzed hdoms)] at hphi
  induction hphi with
  | definition _ hblock hop hdefs => exact ⟨_, mem_operations hblock hop, hdefs⟩
  | phi _ _ ih => exact ih

/-- Registers that occur in the graph. -/
abbrev Occurs (vars : List GuestVariable) (reg : GuestRegister) : Prop :=
  reg ∈ vars.map (·.register)

theorem occurs_of_mem (hcollect : collect graph = .ok vars) {opnd : Operand}
    (hmem : opnd ∈ graph.operations.flatMap Operation.operands)
    (hreg : opnd.register? = some reg) : Occurs vars reg := by
  cases opnd with
  | constant bits type => cases hreg
  | localVar id type => cases hreg
  | register guest type =>
    cases hreg
    obtain ⟨var, hvar, heq, -⟩ := (collect_eq_ok hcollect).covered hmem
    exact mem_map.mpr ⟨var, hvar, heq⟩

/-- A graph as construction expects it: no phis, and all locals in the table. -/
structure Unconstructed (graph : Graph) : Prop where
  phis : ∀ op ∈ graph.operations, op.isPhi = false
  locals : ∀ op ∈ graph.operations, ∀ opnd ∈ op.operands, ∀ id,
    opnd.localId? = some id → id < graph.locals.count

theorem Unconstructed.plain (hfresh : Unconstructed graph) (hcollect : collect graph = .ok vars)
    (hop : op ∈ graph.operations) : Plain (Occurs vars) graph.locals.count op := by
  refine ⟨hfresh.phis op hop, hfresh.locals op hop, fun src hsrc reg hreg => ?_⟩
  exact occurs_of_mem hcollect (mem_flatMap.mpr ⟨op, hop, mem_append_right _ hsrc⟩) hreg

/-! ## One block -/

/-- Which of the events in a block are looked at. -/
abbrev View (Value Memory : Type) : Type :=
  List (Machine.Event Value Memory) → List (Machine.Event Value Memory)

variable (interp args) in
/-- Both runs pass through a block. What they show is the same, and they go on in agreement
if they go on at all. -/
structure Passes (keep : View Value Memory) (known : GuestRegister → Prop) (zeros : Scope)
    (floor : Nat) (scope : Scope) (block block' : Block)
    (arrival arrival' : Option (Nat × State Value Memory)) (first second : State Value Memory)
    (last last' : State Value Memory) (events events' : List (Machine.Event Value Memory)) :
    Prop where
  first : executeAll interp args arrival first block.operations = some (last, events)
  second : executeAll interp args arrival' second block'.operations = some (last', events')
  seen : (keep events').map Event.observe = events.map Event.observe
  leave : Machine.leave interp last' block' = Machine.leave interp last block
  memory : last'.memory = last.memory
  agrees : (∃ slot, Machine.leave interp last block = .ok slot) →
    Agrees (fun _ => True) known zeros floor scope last last'

theorem isTerminator_of_isLoadArgument (hload : op.instruction.isLoadArgument) :
    op.instruction.isTerminator = false := by
  cases hinsn : op.instruction <;> simp_all [Instruction.isLoadArgument, Instruction.isTerminator]

/-- Operations other than phis leave one event each. -/
theorem length_events {state last : State Value Memory}
    (hexec : executeAll interp args arrival state ops = some (last, events))
    (hphis : ∀ op ∈ ops, op.isPhi = false) : events.length = ops.length := by
  induction ops generalizing state events with
  | nil =>
    cases hexec
    rfl
  | cons op rest ih =>
    obtain ⟨mid, events', -, hrest, rfl⟩ := of_executeAll_cons hexec
    have hlength := ih hrest fun op hop => hphis op (.tail _ hop)
    simp [record, hphis op mem_cons_self, hlength]

variable (interp args) in
/-- The entry block. Loads read nothing, so that it does not matter what the locals of
registers hold before the second run clears some of them. -/
theorem Agrees.passes_entry {inScope known : GuestRegister → Prop} {mid : Scope}
    {first second : State Value Memory} {block' : Block} {loads rest loads' rest' : List Operation}
    {cleared : List (Nat × ValueType)} {keep : View Value Memory}
    (hagrees : Agrees inScope (fun _ => False) zeros floor scope first second)
    (hcheck : Validate.Checked block) (hzero : ∀ type, interp.constant 0 type = interp.zero)
    (hops : block.operations = loads ++ rest)
    (hops' : block'.operations = loads' ++ clearing cleared ++ rest')
    (hloads : ∀ op ∈ loads, op.instruction.isLoadArgument)
    (hplain : ∀ op ∈ block.operations, Plain known floor op)
    (hfront : SubstitutesAll zeros floor scope loads loads' mid)
    (hback : SubstitutesAll zeros floor mid rest rest' last) (hscope : AtLeast floor scope)
    (hzeros : AtLeast floor zeros) (hclear : ∀ {first' second₁ second₂ : State Value Memory},
      Agrees (fun reg => inScope reg ∨ ∃ load ∈ loads, Defines load reg)
        (fun _ => False) zeros floor mid first' second₁ →
      (∀ reg, (∀ load ∈ loads, ¬Defines load reg) →
        first'.registers reg = first.registers reg) → second₂.memory = second₁.memory →
      (∀ id, second₂.locals id =
        if id ∈ cleared.map Prod.fst then interp.zero else second₁.locals id) →
      Agrees (fun _ => True) known zeros floor mid first' second₂)
    (hkeep : ∀ {front inits back : List (Machine.Event Value Memory)},
      front.length = loads.length → inits.length = cleared.length →
      (∀ event ∈ front, event.operation ∈ loads') →
      (∀ event ∈ inits, event.operation ∈ clearing cleared) →
      (∀ event ∈ back, event.operation ∈ rest') → keep (front ++ inits ++ back) = front ++ back) :
    ∃ final final' events events', Passes interp args keep known zeros floor last block block'
      none none first second final final' events events' := by
  have hload : ∀ op ∈ loads, Plain (fun _ => False) floor op ∧
      op.instruction.isTerminator = false := by
    intro op hop
    have hmem : op ∈ block.operations := hops ▸ mem_append_left _ hop
    have hnone := hcheck.sources_of_load hmem (hloads op hop)
    exact ⟨⟨(hplain op hmem).phi, (hplain op hmem).locals, by simp [hnone]⟩,
      isTerminator_of_isLoadArgument (hloads op hop)⟩
  obtain ⟨first₁, events₁, second₁, events₁', hfirst₁, hsecond₁, hagrees₁, hseen₁⟩ :=
    hagrees.executeAll interp args none none hfront hscope hzeros (fun _ h => h.elim) hload
  obtain ⟨second₂, events₂, hsecond₂, hmemory₂, hlocals₂⟩ :=
    exists_executeAll_clearing args none hzero cleared second₁
  have hagrees₂ := hclear hagrees₁ (fun _ => registers_executeAll hfirst₁) hmemory₂ hlocals₂
  have hfrontTerm : ∀ op ∈ loads' ++ clearing cleared, op.instruction.isTerminator = false := by
    intro op hop
    rcases mem_append.mp hop with hop | hop
    · exact hfront.isTerminator (fun op hop => (hload op hop).2) op hop
    · obtain ⟨pair, -, rfl⟩ := mem_map.mp hop
      rfl
  obtain ⟨last, events, last', events', hlast, hlast', hseen, hleave, hfinal, hgo⟩ :=
    hagrees₂.finish interp args none none hcheck hops hops' (fun op hop => (hload op hop).2)
      hfrontTerm hback (hfront.atLeast hscope) hzeros
      fun op hop => hplain op (hops ▸ mem_append_right _ hop)
  refine ⟨last, last', events₁ ++ events, events₁' ++ events₂ ++ events', ?_, ?_, ?_, hleave,
    hfinal, hgo⟩
  · simp [hops, executeAll_append, hfirst₁, hlast]
  · simp only [hops', executeAll_append, hsecond₁, hlast', hsecond₂]
  · have hlength₁ : events₁'.length = loads.length := by
      have hlength := congrArg List.length hseen₁
      rw [length_map, length_map] at hlength
      rw [hlength, length_events hfirst₁ fun op hop => (hload op hop).1.phi]
    have hlength₂ : events₂.length = cleared.length := by
      rw [length_events hsecond₂, clearing, length_map]
      intro op hop
      obtain ⟨pair, -, rfl⟩ := mem_map.mp hop
      rfl
    rw [hkeep hlength₁ hlength₂ (operation_mem_of_event hsecond₁) (operation_mem_of_event hsecond₂)
      (operation_mem_of_event hlast'), map_append, map_append, hseen₁, hseen]

theorem Substitutes.not_mem_zeroInits {next : Scope} {new : Operation}
    (hop : Substitutes zeros floor scope op new next)
    (hlocal : ∀ id, op.destination.bind Operand.localId? = some id → id < floor)
    (hzeros : AtLeast floor zeros) : new ∉ zeroInits vars zeros := by
  intro hmem
  obtain ⟨var, -, id, hid, rfl⟩ := mem_zeroInits_iff.mp hmem
  have hfloor := hzeros hid
  generalize hnew : Operation.copy (.localVar id var.type) (.zero var.type) = new at hop
  have hdest : new.destination = some (.localVar id var.type) := by rw [← hnew]; rfl
  cases hop with
  | keep =>
    have := hlocal id (by simp_all [Operand.localId?])
    omega
  | define _ _ _ hfresh =>
    cases hdest
    exact hfresh _ hid

theorem SubstitutesAll.not_mem_zeroInits (hops : SubstitutesAll zeros floor scope ops new last)
    (hlocal : ∀ op ∈ ops, ∀ id, op.destination.bind Operand.localId? = some id → id < floor)
    (hzeros : AtLeast floor zeros) : ∀ op ∈ new, op ∉ zeroInits vars zeros := by
  induction hops with
  | nil => simp
  | cons hop _ ih =>
    refine forall_mem_cons.mpr ⟨hop.not_mem_zeroInits (hlocal _ mem_cons_self) hzeros, ?_⟩
    exact ih fun op hop => hlocal op (.tail _ hop)

/-- Look at the events of operations that were not inserted. -/
def uninserted (inserted : List Operation) : View Value Memory :=
  List.filter fun event => !decide (event.operation ∈ inserted)

/-- Nothing is left out of the events of operations that were not inserted. -/
theorem filter_events (hevents : ∀ event ∈ events, event.operation ∈ ops)
    (hops : ∀ op ∈ ops, op ∉ inserted) :
    (events.filter fun event => !decide (event.operation ∈ inserted)) = events := by
  refine filter_eq_self.mpr fun event hevent => ?_
  simpa using hops _ (hevents event hevent)

theorem exists_loads (ops : List Operation) :
    ∃ loads rest, ops = loads ++ rest ∧ (∀ op ∈ loads, op.instruction.isLoadArgument) ∧
      ∀ op ∈ rest.head?, op.instruction.isLoadArgument = false := by
  refine ⟨ops.takeWhile (·.instruction.isLoadArgument), ops.dropWhile _,
    takeWhile_append_dropWhile.symm, fun op hop => by simpa using mem_takeWhile_imp hop,
    fun op hop => ?_⟩
  have hstop := head?_dropWhile_not (·.instruction.isLoadArgument) ops
  rwa [hop] at hstop

/-- The inserted operations stand between the renamed loads and the rest. -/
theorem afterLoads_append {inits loads rest : List Operation}
    (hloads : ∀ op ∈ loads, op.instruction.isLoadArgument)
    (hrest : ∀ op ∈ rest.head?, op.instruction.isLoadArgument = false) :
    afterLoads inits (loads ++ rest) = loads ++ inits ++ rest := by
  rw [afterLoads, takeWhile_append_of_pos hloads, dropWhile_append_of_pos hloads]
  cases rest with
  | nil => simp
  | cons op others => simp [hrest op rfl]

namespace Constructed

variable (hconstructed : Constructed graph vars zeros out span result)
include hconstructed

theorem atLeast_zeros : AtLeast graph.locals.count zeros := fun _ _ h => (hconstructed.cleared h).1

theorem atLeast_out (b : Nat) : AtLeast graph.locals.count (out b) :=
  fun _ _ h => (hconstructed.within b h).1

theorem atLeast_scopeAbove (b : Nat) : AtLeast graph.locals.count (scopeAbove graph out b) := by
  intro reg id hid
  obtain ⟨parent, -, -, hid⟩ := exists_parent_of_lookup hid
  exact hconstructed.atLeast_out parent hid

variable {block : Block} {b p : Nat} {first second : State Value Memory}

/-- A phi finds a local for its register at the end of each predecessor. -/
theorem resolved_input (hblock : graph.blocks[b]? = some block) {var : GuestVariable}
    (hvar : var ∈ phiVars graph vars b) (hp : p ∈ block.predecessors) :
    Resolved zeros (out p) (.register var.register var.type) := by
  refine hconstructed.fed hblock (emptyPhi var block.predecessors)
    (mem_map.mpr ⟨var, hvar, rfl⟩) (p, .register var.register var.type) ?_
  rw [inputs_emptyPhi]
  exact mem_map.mpr ⟨p, hp, rfl⟩

/-- The operations of a block other than the entry: renamed phis, then the renamed
operations of the original block. -/
theorem exists_inner (hfresh : Unconstructed graph) (hb : b ≠ entry)
    (hblock : graph.blocks[b]? = some block) :
    ∃ scope phis new, result.blocks[b]? = some { block with operations := phis ++ new } ∧
      SubstitutesAll zeros graph.locals.count (scopeAbove graph out b)
        ((phiVars graph vars b).map (fedPhi zeros out block.predecessors)) phis scope ∧
      SubstitutesAll zeros graph.locals.count scope block.operations new (out b) := by
  obtain ⟨ops, hresult, hren⟩ := hconstructed.blocks hblock
  rw [phisAndOperations_eq fun op hop => hfresh.phis op (mem_operations hblock hop)] at hren
  obtain ⟨scope, phis, new, rfl, hphis, hnew⟩ :=
    (hren.substitutes (hconstructed.spans b (lt_size hblock)).1).append
  exact ⟨scope, phis, new, by rw [hresult, if_neg hb], hphis, hnew⟩

/-- The entry block: renamed loads, the copies that clear locals, and the rest. -/
theorem exists_entry (hprep : Prepared graph) (hfresh : Unconstructed graph)
    (hblock : graph.blocks[entry]? = some block) : ∃ scope loads rest loads' rest',
      block.operations = loads ++ rest ∧ (∀ op ∈ loads, op.instruction.isLoadArgument) ∧
      result.blocks[entry]? =
        some { block with operations := loads' ++ zeroInits vars zeros ++ rest' } ∧
      SubstitutesAll zeros graph.locals.count [] loads loads' scope ∧
      SubstitutesAll zeros graph.locals.count scope rest rest' (out entry) := by
  obtain ⟨ops, hresult, hren⟩ := hconstructed.blocks hblock
  have hnone : phiVars graph vars entry = [] := by
    refine eq_nil_iff_forall_not_mem.mpr fun var hvar => ?_
    obtain ⟨c, hc⟩ := ((mem_phiBlocks_iff (.of_analyzed hprep.analyzed)).mp
      (mem_phiVars_iff.mp hvar).2).inside
    obtain ⟨p, -, hedge⟩ := hprep.analyzed.frontier_entry hc
    have := hprep.analyzed.mirrored.mem_iff.mp hedge
    simp [hprep.entry_free] at this
  obtain ⟨loads, rest, hops, hloads, hrest⟩ := exists_loads block.operations
  rw [phisAndOperations_eq fun op hop => hfresh.phis op (mem_operations hblock hop), hnone,
    scopeAbove_entry, map_nil, nil_append, hops] at hren
  obtain ⟨scope, loads', rest', rfl, hfront, hback⟩ :=
    (hren.substitutes (hconstructed.spans entry (lt_size hblock)).1).append
  refine ⟨scope, loads, rest, loads', rest', hops, hloads, ?_, hfront, hback⟩
  rw [hresult, if_pos rfl, afterLoads_append]
  · intro op hop
    obtain ⟨old, hold, hsame⟩ := hfront.exists_instruction hop
    rw [hsame]
    exact hloads old hold
  · intro op hop
    have hsame : (rest'.map (·.instruction)).head? = (rest.map (·.instruction)).head? := by
      rw [hback.map_instruction]
    rw [head?_map, head?_map, hop] at hsame
    obtain ⟨old, hold, hinsn⟩ := Option.map_eq_some_iff.mp hsame.symm
    simpa only [hinsn] using hrest old hold

variable (interp args) in
theorem passes_inner (hprep : Prepared graph) (hfresh : Unconstructed graph)
    (hcollect : collect graph = .ok vars) (hedge : graph.Edge p b)
    (hblock : graph.blocks[b]? = some block)
    (hagrees : Agrees (fun _ => True) (Occurs vars) zeros graph.locals.count (out p) first second) :
    ∃ operations last last' events events', result.blocks[b]? = some { block with operations } ∧
      Passes interp args (uninserted (zeroInits vars zeros)) (Occurs vars) zeros
        graph.locals.count (out b) block { block with operations } (some (p, first))
        (some (p, second)) first second last last' events events' := by
  have hmirror := hprep.analyzed.mirrored
  have hb : b ≠ entry := by
    rintro rfl
    have := hmirror.mem_iff.mp hedge
    simp [hprep.entry_free] at this
  have hp : p ∈ block.predecessors := predecessors_eq hblock ▸ hmirror.mem_iff.mp hedge
  obtain ⟨scope, phis, new, hresult, hphis, hnew⟩ := hconstructed.exists_inner hfresh hb hblock
  -- without a phi the register is found above the block as at the end of the predecessor
  have hlookup : ∀ {reg}, reg ∉ (phiVars graph vars b).map (·.register) →
      (scopeAbove graph out b).lookup reg = (out p).lookup reg := by
    intro reg hnot
    refine hconstructed.lookup_edge hprep hedge fun hphi => hnot ?_
    obtain ⟨op, hop, hdefs⟩ := exists_defines_of_mem_phiBlocks hprep.analyzed hphi
    obtain ⟨opnd, hdest, hreg⟩ := Option.bind_eq_some_iff.mp hdefs
    obtain ⟨var, hvar, rfl⟩ := mem_map.mp (occurs_of_mem hcollect
      (mem_flatMap.mpr ⟨op, hop, mem_append_left _ (by simp [hdest])⟩) hreg)
    exact mem_map.mpr ⟨var, mem_phiVars_iff.mpr ⟨hvar, hphi⟩, rfl⟩
  have hstart : Agrees (· ∉ (phiVars graph vars b).map (·.register))
      (fun reg => Occurs vars reg ∧ reg ∉ (phiVars graph vars b).map (·.register))
      zeros graph.locals.count (scopeAbove graph out b) first second :=
    ⟨hagrees.memory, hagrees.locals, fun _ _ hin hid => hagrees.bound trivial (hlookup hin ▸ hid),
      fun _ _ hout hnone => hagrees.cleared hout.1 (hlookup hout.2 ▸ hnone)⟩
  obtain ⟨second', hsecond, hagrees'⟩ := Agrees.executePhis interp args hp hagrees hphis
    (fun var hvar => mem_map.mpr ⟨var, (mem_phiVars_iff.mp hvar).1, rfl⟩)
    (fun var hvar => hconstructed.resolved_input hblock hvar hp) hstart
  have hplain : ∀ op ∈ block.operations, Plain (Occurs vars) graph.locals.count op :=
    fun op hop => hfresh.plain hcollect (mem_operations hblock hop)
  have hphi := hphis.isTerminator fun op hop => by
    obtain ⟨var, -, rfl⟩ := mem_map.mp hop
    have hinsn : (fedPhi zeros out block.predecessors var).instruction = .phi :=
      beq_iff_eq.mp (isPhi_fedPhi zeros out block.predecessors var)
    rw [hinsn]
    rfl
  have hops : ({ block with operations := phis ++ new } : Block).operations = phis ++ new := rfl
  obtain ⟨last, events, last', events', hlast, hlast', hseen, hleave, hmemory, hfinal⟩ :=
    hagrees'.finish interp args (some (p, first)) (some (p, second))
      (hprep.checked hblock) (nil_append _).symm hops (by simp) hphi hnew
      (hphis.atLeast (hconstructed.atLeast_scopeAbove b)) hconstructed.atLeast_zeros hplain
  refine ⟨phis ++ new, last, last', events, events', hresult, hlast, ?_, ?_, hleave, hmemory, hfinal⟩
  · simp [executeAll_append, hsecond, hlast']
  · rw [uninserted, filter_events (operation_mem_of_event hlast') (hnew.not_mem_zeroInits
      (fun op hop => (hplain op hop).destination) hconstructed.atLeast_zeros), hseen]

/-- The copies at the entry bring all registers into agreement. -/
theorem agrees_cleared {second' : State Value Memory}
    (hagrees : Agrees (fun _ => True) (fun _ => False) zeros graph.locals.count scope first second)
    (havoids : Avoiding zeros scope)
    (hunwritten : ∀ reg, scope.lookup reg = none → first.registers reg = interp.zero)
    (hmemory : second'.memory = second.memory) (hlocals : ∀ id, second'.locals id =
      if ∃ var ∈ vars, zeros.lookup var.register = some id then interp.zero
      else second.locals id) :
    Agrees (fun _ => True) (Occurs vars) zeros graph.locals.count scope first second' := by
  refine ⟨hmemory.trans hagrees.memory, fun id hid => ?_, fun reg id _ hid => ?_,
    fun reg id hknown hnone hid => ?_⟩
  · rw [hlocals, if_neg]
    · exact hagrees.locals id hid
    · rintro ⟨var, -, hvar⟩
      have := hconstructed.atLeast_zeros hvar
      omega
  · rw [hlocals, if_neg]
    · exact hagrees.bound trivial hid
    · rintro ⟨var, -, hvar⟩
      exact havoids hid _ hvar
  · obtain ⟨var, hvar, rfl⟩ := mem_map.mp hknown
    rw [hlocals, if_pos ⟨var, hvar, hid⟩, hunwritten _ hnone]

variable (interp args) in
/-- The entry block, which is entered with all registers zero. -/
theorem passes_entry (hprep : Prepared graph) (hfresh : Unconstructed graph)
    (hcollect : collect graph = .ok vars) (hzero : ∀ type, interp.constant 0 type = interp.zero)
    (hblock : graph.blocks[entry]? = some block)
    (hregisters : ∀ reg, first.registers reg = interp.zero)
    (hmemory : second.memory = first.memory)
    (hlocals : ∀ id < graph.locals.count, second.locals id = first.locals id) :
    ∃ operations, result.blocks[entry]? = some { block with operations } ∧
      ∃ last last' events events', Passes interp args (uninserted (zeroInits vars zeros))
        (Occurs vars) zeros graph.locals.count (out entry) block { block with operations } none none
        first second last last' events events' := by
  obtain ⟨scope, loads, rest, loads', rest', hsplit, hloads, hresult, hfront, hback⟩ :=
    hconstructed.exists_entry hprep hfresh hblock
  have hplain : ∀ op ∈ block.operations, Plain (Occurs vars) graph.locals.count op :=
    fun op hop => hfresh.plain hcollect (mem_operations hblock hop)
  have hstart : Agrees (fun _ => True) (fun _ => False) zeros graph.locals.count [] first second :=
    ⟨hmemory, hlocals, fun _ _ _ h => (by cases h), fun _ _ h => h.elim⟩
  have hops : ({ block with
      operations := loads' ++ zeroInits vars zeros ++ rest' } : Block).operations =
    loads' ++ clearing (vars.filterMap fun var =>
      (zeros.lookup var.register).map fun id => (id, var.type)) ++ rest' := rfl
  refine ⟨_, hresult, ?_⟩
  refine hstart.passes_entry interp args (hprep.checked hblock) hzero hsplit hops hloads
    hplain hfront hback (fun _ _ h => by cases h) hconstructed.atLeast_zeros ?_ ?_
  · intro first' second₁ second₂ hagrees hsame hmemory hlocals
    have hunwritten : ∀ reg, scope.lookup reg = none → first'.registers reg = interp.zero := by
      intro reg hnone
      rw [hsame reg (hfront.not_defines hnone).2, hregisters]
    refine hconstructed.agrees_cleared (hagrees.mono fun _ => .inl)
      (hfront.avoiding fun _ _ h => (by cases h)) hunwritten hmemory fun id => ?_
    rw [hlocals]
    congr 1
    simp [eq_comm]
  · intro front inits back _ _ hfront' hinits hback'
    have hnone : inits.filter (fun event =>
        !decide (event.operation ∈ zeroInits vars zeros)) = [] := by
      refine filter_eq_nil_iff.mpr fun event hevent => ?_
      have hmem : event.operation ∈ zeroInits vars zeros := hinits event hevent
      simpa using hmem
    rw [uninserted, filter_append, filter_append, hnone,
      filter_events hfront' (hfront.not_mem_zeroInits (fun op hop =>
        (hplain op (hsplit ▸ mem_append_left _ hop)).destination) hconstructed.atLeast_zeros),
      filter_events hback' (hback.not_mem_zeroInits (fun op hop =>
        (hplain op (hsplit ▸ mem_append_right _ hop)).destination)
        hconstructed.atLeast_zeros), append_nil]

end Constructed

/-! ## Runs -/

/-- What a run shows of the events that are looked at. -/
def shown (keep : Nat → View Value Memory) (trace : Trace Value Memory) :
    List (Nat × List (Observation Value Memory)) × Ending Value Memory :=
  (trace.visits.map fun visit => (visit.block, (keep visit.block visit.events).map Event.observe),
    trace.ending)

/-- Runs that pass through a block show the same if they do from there on. -/
theorem Passes.shown_run {keep : Nat → View Value Memory} {known : GuestRegister → Prop}
    {block' : Block} {arrival' : Option (Nat × State Value Memory)}
    {first second last last' : State Value Memory} {events' : List (Machine.Event Value Memory)}
    {bound : Nat}
    (hpasses : Passes interp args (keep b) known zeros floor scope block block' arrival
      arrival' first second last last' events events') (hblock : graph.blocks[b]? = some block)
    (hblock' : result.blocks[b]? = some block') (hsuccs : block'.successors = block.successors)
    (hnext : ∀ target ∈ block.successors,
      Agrees (fun _ => True) known zeros floor scope last last' →
      shown keep (run interp args result bound ⟨target, some (b, last'), last'⟩) =
        (run interp args graph bound ⟨target, some (b, last), last⟩).observe) :
    shown keep (run interp args result (bound + 1) ⟨b, arrival', second⟩) =
      (run interp args graph (bound + 1) ⟨b, arrival, first⟩).observe := by
  have hcons : ∀ {trace trace' : Trace Value Memory}, shown keep trace' = trace.observe →
      shown keep ⟨⟨b, events'⟩ :: trace'.visits, trace'.ending⟩ =
        (Trace.mk (⟨b, events⟩ :: trace.visits) trace.ending).observe := by
    intro trace trace' hsame
    rw [shown, Trace.observe, Prod.mk.injEq] at hsame
    simp only [shown, Trace.observe, map_cons, hsame, hpasses.seen]
  cases hleave : Machine.leave interp last block with
  | error vals =>
    simp only [run, move, hblock, hblock', hpasses.first, hpasses.second, hpasses.leave, hleave,
      hpasses.memory]
    exact @hcons ⟨[], _⟩ ⟨[], _⟩ rfl
  | ok slot =>
    cases htarget : block.successors[slot]? with
    | none =>
      simp only [run, move, hblock, hblock', hpasses.first, hpasses.second, hpasses.leave,
        hleave, hsuccs, htarget]
      exact @hcons ⟨[], _⟩ ⟨[], _⟩ rfl
    | some target =>
      simp only [run, move, hblock, hblock', hpasses.first, hpasses.second, hpasses.leave,
        hleave, hsuccs, htarget]
      exact hcons (hnext target (mem_of_getElem? htarget) (hpasses.agrees ⟨slot, hleave⟩))

namespace Constructed

variable (hconstructed : Constructed graph vars zeros out span result)
include hconstructed

variable {first second : State Value Memory}

variable (hprep : Prepared graph) (hfresh : Unconstructed graph)
  (hcollect : collect graph = .ok vars)
include hprep hfresh hcollect

theorem shown_run_inner (bound : Nat) {p b : Nat} (hedge : graph.Edge p b)
    (hagrees : Agrees (fun _ => True) (Occurs vars) zeros graph.locals.count (out p) first second) :
    shown (fun _ => uninserted (zeroInits vars zeros))
        (run interp args result bound ⟨b, some (p, second), second⟩) =
      (run interp args graph bound ⟨b, some (p, first), first⟩).observe := by
  induction bound generalizing p b first second with
  | zero => simp only [run, shown, Trace.observe, hagrees.memory]; rfl
  | succ bound ih =>
    obtain ⟨block, hblock⟩ := exists_block (hprep.analyzed.mirrored.lt_size_of_successor hedge)
    obtain ⟨ops, last, last', events, events', hblock', hpasses⟩ :=
      hconstructed.passes_inner interp args hprep hfresh hcollect hedge hblock hagrees
    refine hpasses.shown_run hblock hblock' rfl fun target htarget hagrees' => ?_
    exact ih (by rwa [Edge, successors_eq hblock]) hagrees'

theorem shown_run (hzero : ∀ type, interp.constant 0 type = interp.zero) (bound : Nat)
    (hregisters : ∀ reg, first.registers reg = interp.zero)
    (hmemory : second.memory = first.memory)
    (hlocals : ∀ id < graph.locals.count, second.locals id = first.locals id) :
    shown (fun _ => uninserted (zeroInits vars zeros))
        (run interp args result bound (start second)) =
      (run interp args graph bound (start first)).observe := by
  cases bound with
  | zero => simp only [run, start, shown, Trace.observe, hmemory]; rfl
  | succ bound =>
    obtain ⟨block, hblock⟩ : ∃ block, graph.blocks[entry]? = some block :=
      exists_block hprep.analyzed.nonempty
    obtain ⟨ops, hblock', last, last', events, events', hpasses⟩ :=
      hconstructed.passes_entry interp args hprep hfresh hcollect hzero hblock hregisters
        hmemory hlocals
    refine hpasses.shown_run hblock hblock' rfl fun target htarget hagrees => ?_
    refine hconstructed.shown_run_inner hprep hfresh hcollect bound ?_ hagrees
    rwa [Edge, successors_eq hblock]

end Constructed

theorem Constructed.eq_of_mem_zeroInits
    (hconstructed : Constructed graph vars zeros out span result)
    (hop : op ∈ zeroInits vars zeros) :
    ∃ id type, graph.locals.count ≤ id ∧ op = .copy (.localVar id type) (.zero type) := by
  obtain ⟨var, -, id, hid, rfl⟩ := mem_zeroInits_iff.mp hop
  exact ⟨id, var.type, hconstructed.atLeast_zeros hid, rfl⟩

/-- Construction keeps the meaning of a graph whose edges are seen from both ends. Started
with all registers zero, the two graphs visit the same blocks, carry out the same operations
on the same values, and return the same, for every interpretation in which the zero
constants are zero. Extra operations only clear new locals, and the new locals may hold
anything at the start. -/
theorem construct_refines {src pruned : Graph} {sig : Validate.Signature}
    (hmirror : src.Mirrored) (hidx : src.Indexed)
    (hprepare : src.prepare sig = .ok pruned)
    (hanalyze : Dominance.analyze pruned = .ok graph) (hfresh : Unconstructed graph)
    (hconstruct : construct graph = .ok result) (hbound : result.locals.count ≤ 2 ^ 32) :
    ∃ inserted : List Operation, (∀ op ∈ inserted, ∃ id type, graph.locals.count ≤ id ∧
        op = .copy (.localVar id type) (.zero type)) ∧
      ∀ (Value Memory : Type) (interp : Interpretation Value Memory) (args : List Value)
        (first second : State Value Memory) (bound : Nat),
        (∀ type, interp.constant 0 type = interp.zero) →
        (∀ reg, first.registers reg = interp.zero) →
        second.memory = first.memory →
        (∀ id < graph.locals.count, second.locals id = first.locals id) →
        ((run interp args result bound (start second)).erase (fun _ => false)
            fun op => decide (op ∈ inserted)).observe =
          (run interp args graph bound (start first)).observe := by
  have hprep := prepared_of_prepare hmirror hidx hprepare hanalyze
  rcases exists_construct hprep with ⟨reg, known, used, herror, -⟩ | ⟨made, hmade, -, hspec⟩
  · rw [hconstruct] at herror
    cases herror
  · obtain rfl : result = made := by
      rw [hconstruct] at hmade
      exact Except.ok.inj hmade
    obtain ⟨vars, zeros, out, span, hcollect, hconstructed⟩ := hspec hfresh.phis hbound
    refine ⟨zeroInits vars zeros, fun op hop => hconstructed.eq_of_mem_zeroInits hop, ?_⟩
    intro Value Memory interp args first second bound hzero hregisters hmemory hlocals
    rw [← hconstructed.shown_run hprep hfresh hcollect hzero bound hregisters hmemory hlocals]
    simp [shown, Trace.erase, Trace.observe, uninserted]

/-- A loop that counts a register down by a local, to a register that was never written. -/
def countdown : Graph where
  blocks := #[
    { index := 0
      operations := [.copy (.localVar 0 .i64) (.constant 2 .i64),
        .copy (.guest 0) (.constant 6 .i64), .branch]
      successors := [1] },
    { index := 1
      operations := [
        .compute .sub (.guest 0)
          [.guest 0, .localVar 0 .i64],
        .branchIf .ne (.guest 0) (.guest 1)]
      successors := [2, 1]
      predecessors := [0, 1] },
    { index := 2
      operations := [.ret (.guest 0)]
      predecessors := [1] }]
  locals := ⟨#[some .i64]⟩

/-- The loop with what the analysis finds out. -/
def analyzedCountdown : Graph where
  blocks := countdown.blocks.mapIdx fun b block =>
    if b = 1 then { block with immediateDominator := some 0, frontier := [1] }
    else if b = 2 then { block with immediateDominator := some 1 }
    else block
  locals := countdown.locals

/-- The loop over locals: one for each definition, one for the phi, and a cleared one. -/
def constructedCountdown : Graph := analyzedCountdown.rewritten
  [[.copy (.localVar 4 .i64) (.zero .i64), .copy (.localVar 0 .i64) (.constant 2 .i64),
      .copy (.localVar 1 .i64) (.constant 6 .i64), .branch],
    [.phi (.localVar 2 .i64) [(0, .localVar 1 .i64), (1, .localVar 3 .i64)],
      .compute .sub (.localVar 3 .i64) [.localVar 2 .i64, .localVar 0 .i64],
      .branchIf .ne (.localVar 3 .i64) (.localVar 4 .i64)],
    [.ret (.localVar 3 .i64)]] ⟨.replicate 5 (some .i64)⟩

theorem countdown_mirrored : countdown.Mirrored := by
  intro a b
  rcases a with _ | _ | _ | a <;> rcases b with _ | _ | _ | b <;>
    simp [countdown, Graph.successors, Graph.predecessors]

theorem countdown_indexed : countdown.Indexed := by
  intro b block hblock
  rcases b with _ | _ | _ | b <;> simp [countdown] at hblock <;> rw [← hblock]

theorem analyzedCountdown_unconstructed : Unconstructed analyzedCountdown := ⟨by decide, by decide⟩

theorem prepare_countdown : countdown.prepare ⟨[], some .i64⟩ = .ok countdown := by cbv

theorem analyze_countdown : Dominance.analyze countdown = .ok analyzedCountdown := by cbv

theorem construct_countdown : construct analyzedCountdown = .ok constructedCountdown := by
  decide +kernel

theorem construct_refines_countdown : countdown.prepare ⟨[], some .i64⟩ = .ok countdown ∧
      Dominance.analyze countdown = .ok analyzedCountdown ∧
      construct analyzedCountdown = .ok constructedCountdown ∧
      ∃ inserted : List Operation,
        (∀ op ∈ inserted, ∃ id type, analyzedCountdown.locals.count ≤ id ∧
          op = .copy (.localVar id type) (.zero type)) ∧
        ∀ bound, ((run numbers [] constructedCountdown bound (start zeroed)).erase (fun _ => false)
            fun op => decide (op ∈ inserted)).observe =
          (run numbers [] analyzedCountdown bound (start zeroed)).observe := by
  obtain ⟨inserted, hinserted, hrefines⟩ := construct_refines countdown_mirrored countdown_indexed
    prepare_countdown analyze_countdown analyzedCountdown_unconstructed construct_countdown
    (by decide)
  exact ⟨prepare_countdown, analyze_countdown, construct_countdown, inserted, hinserted,
    fun bound => hrefines Nat Unit numbers [] zeroed zeroed bound (fun _ => rfl) (fun _ => rfl) rfl
      fun _ _ => rfl⟩

/-- An edge that its target does not know of. -/
def oneWayEdge : Graph where
  blocks := #[
    { index := 0
      operations := [.copy (.guest 0) (.constant 5 .i64), .branch]
      successors := [1] },
    { index := 1
      operations := [.ret (.guest 0)] }]

def constructedOneWayEdge : Graph := oneWayEdge.rewritten
  [[.copy (.localVar 1 .i64) (.zero .i64), .copy (.localVar 0 .i64) (.constant 5 .i64), .branch],
    [.ret (.localVar 1 .i64)]] ⟨.replicate 2 (some .i64)⟩

/-- The analysis follows predecessors, so the target of a one-way edge is outside the tree,
and its read of the register is taken for one before any definition. -/
theorem construct_oneWayEdge_differs : oneWayEdge.prepare ⟨[], some .i64⟩ = .ok oneWayEdge ∧
      Dominance.analyze oneWayEdge = .ok oneWayEdge ∧ Unconstructed oneWayEdge ∧
      construct oneWayEdge = .ok constructedOneWayEdge ∧
      (run numbers [] oneWayEdge 2 (start zeroed)).ending = .returned [5] () ∧
      (run numbers [] constructedOneWayEdge 2 (start zeroed)).ending =
        .returned [0] () := by
  refine ⟨by cbv, by cbv, ⟨by decide, by decide⟩, by decide +kernel, rfl, rfl⟩

end GraphJit.SSA
