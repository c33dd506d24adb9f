import GraphJit.Proofs.ConstructionRefines

/-! # One local for each register keeps the meaning of a graph

The original and the renamed graph run in step, block by block: at every point the
local of a register holds the value of the register. What the second run does on its
own is to clear, behind the argument loads of the entry block, the locals of those
registers that the loads do not write. The entry block must not be entered again,
because it would clear them once more.
-/

namespace GraphJit.SSA

open GraphJit.Graph Machine List Operand GuestVariable

variable {Value Memory : Type} {interp : Interpretation Value Memory} {args : List Value}
  {graph result : Graph} {vars : List GuestVariable} {assigned : List (GuestVariable × Nat)}
  {floor : Nat}

/-! ## The locals of the registers -/

theorem count_assign (locals : LocalTable) (vars : List GuestVariable) :
    (GuestVariable.assign locals vars).2.count = locals.count + vars.length := by
  induction vars generalizing locals with
  | nil => rfl
  | cons var rest ih =>
    have hcount : (locals.fresh var.type).2.count = locals.count + 1 := Array.size_push _
    rw [length_cons, Nat.add_comm rest.length, ← Nat.add_assoc, ← hcount]
    exact ih (locals.fresh var.type).2

theorem map_fst_assign (locals : LocalTable) (vars : List GuestVariable) :
    (GuestVariable.assign locals vars).1.map Prod.fst = vars := by
  induction vars generalizing locals with
  | nil => rfl
  | cons var rest ih => simp only [GuestVariable.assign, map_cons, ih]

variable {block block' : Block} {op : Operation} {b : Nat} {locals : LocalTable}
  {rest : List Operation} {arrival : Option (Nat × State Value Memory)} {last : State Value Memory}
  {events : List (Machine.Event Value Memory)} {sig : Validate.Signature}

/-- The locals are numbered from the end of the table on, as long as there are numbers. -/
theorem map_snd_assign (hbound : locals.count + vars.length ≤ 2 ^ 32) :
    (GuestVariable.assign locals vars).1.map Prod.snd = List.range' locals.count vars.length := by
  induction vars generalizing locals with
  | nil => rfl
  | cons var rest ih =>
    have hcount : (locals.fresh var.type).2.count = locals.count + 1 := Array.size_push _
    rw [length_cons] at hbound
    have hid : (locals.fresh var.type).1 = locals.count :=
      Nat.mod_eq_of_lt (by simp only [twoPow, Nat.pow_eq]; omega)
    have hrest := @ih (locals.fresh var.type).2 (by omega)
    rw [hcount] at hrest
    simp only [GuestVariable.assign, map_cons, hrest, hid, length_cons, range'_succ]

/-- Each variable has a new local of its own. -/
structure OwnLocals (vars : List GuestVariable) (floor : Nat)
    (assigned : List (GuestVariable × Nat)) : Prop where
  owners : assigned.map Prod.fst = vars
  registers : (assigned.map fun entry => entry.1.register).Nodup
  numbers : (assigned.map Prod.snd).Nodup
  new : ∀ entry ∈ assigned, floor ≤ entry.2

theorem ownLocals_assign (hnodup : (vars.map (·.register)).Nodup)
    (hbound : locals.count + vars.length ≤ 2 ^ 32) :
    OwnLocals vars locals.count (GuestVariable.assign locals vars).1 := by
  refine ⟨map_fst_assign locals vars, ?_, ?_, fun entry hentry => ?_⟩
  · have hregisters : (GuestVariable.assign locals vars).1.map (fun entry => entry.1.register) =
        vars.map (·.register) := by
      conv_rhs => rw [← map_fst_assign locals vars, map_map]
      rfl
    rwa [hregisters]
  · rw [map_snd_assign hbound]
    exact nodup_range'
  · have hmem : entry.2 ∈ List.range' locals.count vars.length :=
      map_snd_assign hbound ▸ mem_map_of_mem hentry
    simpa using (mem_range'_1.mp hmem).1

namespace OwnLocals

variable (hown : OwnLocals vars floor assigned)
include hown

variable {entry : GuestVariable × Nat}

theorem find?_eq_some (hentry : entry ∈ assigned) :
    assigned.find? (·.1.register == entry.1.register) = some entry := by
  have hsome : (assigned.find? (·.1.register == entry.1.register)).isSome :=
    find?_isSome.mpr ⟨entry, hentry, by simp⟩
  obtain ⟨found, hfound⟩ := Option.isSome_iff_exists.mp hsome
  have hreg : found.1.register = entry.1.register := by simpa using find?_some hfound
  rw [hfound]
  exact congrArg some (inj_on_of_nodup_map hown.registers (mem_of_find?_eq_some hfound) hentry hreg)

theorem exists_entry {reg : GuestRegister} (hreg : Occurs vars reg) :
    ∃ entry ∈ assigned, entry.1.register = reg := by
  obtain ⟨var, hvar, rfl⟩ := mem_map.mp hreg
  obtain ⟨entry, hentry, rfl⟩ := mem_map.mp (hown.owners ▸ hvar)
  exact ⟨entry, hentry, rfl⟩

theorem renameRegister_eq (hentry : entry ∈ assigned) (type : ValueType) :
    (Operand.register entry.1.register type).renameRegister assigned = .localVar entry.2 type := by
  simp only [renameRegister, hown.find?_eq_some hentry]

end OwnLocals

/-- No register is left where every register has a local. -/
theorem OwnLocals.register?_renameRegister (hown : OwnLocals vars floor assigned)
    {opnd : Operand} (hoccurs : ∀ reg, opnd.register? = some reg →
      Occurs vars reg) : (opnd.renameRegister assigned).register? = none := by
  cases opnd with
  | constant bits type => rfl
  | localVar id type => rfl
  | register reg type =>
    obtain ⟨entry, hentry, rfl⟩ := hown.exists_entry (hoccurs reg rfl)
    rw [hown.renameRegister_eq hentry]
    rfl

/-- The locals of the registers as a scope, which stays the same from operation to operation. -/
def homes (assigned : List (GuestVariable × Nat)) : Scope :=
  assigned.map fun entry => (entry.1.register, entry.2)

theorem lookup_homes (assigned : List (GuestVariable × Nat)) (reg : GuestRegister) :
    (homes assigned).lookup reg = (assigned.find? (·.1.register == reg)).map Prod.snd := by
  induction assigned with
  | nil => rfl
  | cons entry rest ih =>
    change List.lookup reg ((entry.1.register, entry.2) :: homes rest) = _
    rw [lookup_cons, ih, find?_cons]
    by_cases h : reg = entry.1.register
    · simp [h]
    · simp [h, beq_false_of_ne (Ne.symm h)]

theorem exists_of_lookup {reg : GuestRegister} {id : Nat}
    (hlookup : (homes assigned).lookup reg = some id) :
    ∃ entry ∈ assigned, entry.1.register = reg ∧ entry.2 = id := by
  rw [lookup_homes, Option.map_eq_some_iff] at hlookup
  obtain ⟨entry, hfind, rfl⟩ := hlookup
  exact ⟨entry, mem_of_find?_eq_some hfind, by simpa using find?_some hfind, rfl⟩

theorem renameRegister_eq_resolve (assigned : List (GuestVariable × Nat)) (opnd : Operand) :
    opnd.renameRegister assigned = resolve [] (homes assigned) opnd := by
  cases opnd with
  | constant bits type => rfl
  | localVar id type => rfl
  | register reg type =>
    simp only [renameRegister, resolve, lookup_homes]
    cases assigned.find? (·.1.register == reg) <;> rfl

namespace OwnLocals

variable (hown : OwnLocals vars floor assigned)
include hown

variable {entry : GuestVariable × Nat}

theorem lookup_homes_of_mem (hentry : entry ∈ assigned) :
    (homes assigned).lookup entry.1.register = some entry.2 := by
  rw [lookup_homes, hown.find?_eq_some hentry, Option.map_some]

theorem atLeast_homes : AtLeast floor (homes assigned) := by
  intro reg id hlookup
  obtain ⟨entry, hentry, -, rfl⟩ := exists_of_lookup hlookup
  exact hown.new entry hentry

/-- An operation is renamed within the scope of all registers. -/
theorem substitutes (hphi : op.isPhi = false) (hoccurs : ∀ opnd ∈ op.operands, ∀ reg,
      opnd.register? = some reg → Occurs vars reg) :
    Substitutes [] floor (homes assigned) op (op.renameRegisters assigned) (homes assigned) := by
  have hsrcs : (op.renameRegisters assigned).sources = readSources [] (homes assigned) op := by
    rw [readSources, hphi]
    exact map_congr_left fun opnd _ => renameRegister_eq_resolve assigned opnd
  have hres : op.isPhi = false → ∀ src ∈ op.sources, Resolved [] (homes assigned) src := by
    rintro - src hsrc reg type rfl
    obtain ⟨entry, hentry, rfl⟩ := hown.exists_entry (hoccurs _ (mem_append_right _ hsrc) reg rfl)
    simp [hown.lookup_homes_of_mem hentry]
  have hkeep : op.destination.map (renameRegister assigned) = op.destination →
      op.destination.bind register? = none →
      Substitutes [] floor (homes assigned) op (op.renameRegisters assigned) (homes assigned) := by
    intro hsame hnone
    have hop : op.renameRegisters assigned =
        { op with sources := readSources [] (homes assigned) op } := by
      rw [← hsrcs, Operation.renameRegisters, hsame]
    exact hop ▸ .keep hnone hres
  rcases hdest : op.destination with _ | ⟨bits, type⟩ | ⟨reg, type⟩ | ⟨id, type⟩
  · exact hkeep (by rw [hdest]; rfl) (by rw [hdest]; rfl)
  · exact hkeep (by rw [hdest]; rfl) (by rw [hdest]; rfl)
  · obtain ⟨entry, hentry, rfl⟩ := hown.exists_entry
      (hoccurs (.register reg type) (mem_append_left _ (by simp [hdest])) reg rfl)
    have hop : op.renameRegisters assigned =
        { op with
          sources := readSources [] (homes assigned) op
          destination := some (.localVar entry.2 type) } := by
      rw [← hsrcs, Operation.renameRegisters, hdest, Option.map_some, hown.renameRegister_eq hentry]
    rw [hop]
    refine .define hdest (hown.new entry hentry) (fun other hne hother => hne ?_) (by simp)
      (fun other => ?_) hres
    · obtain ⟨found, hfound, rfl, hsame⟩ := exists_of_lookup hother
      rw [inj_on_of_nodup_map hown.numbers hfound hentry hsame]
    · split
      next h => rw [h, hown.lookup_homes_of_mem hentry]
      next => rfl
  · exact hkeep (by rw [hdest]; rfl) (by rw [hdest]; rfl)

theorem substitutesAll {ops : List Operation}
    (hops : ∀ op ∈ ops, op.isPhi = false ∧ ∀ opnd ∈ op.operands, ∀ reg,
      opnd.register? = some reg → Occurs vars reg) :
    SubstitutesAll [] floor (homes assigned) ops (ops.map (Operation.renameRegisters assigned))
      (homes assigned) := by
  induction ops with
  | nil => exact .nil
  | cons op rest ih =>
    obtain ⟨hphi, hoccurs⟩ := hops op mem_cons_self
    exact .cons (hown.substitutes hphi hoccurs) (ih fun op hop => hops op (.tail _ hop))

end OwnLocals

/-! ## The renamed graph -/

/-- The result of renaming: every block with locals for its registers, and behind the
argument loads of the entry the copies that clear the locals which no load writes. -/
structure LocalsForRegisters (graph : Graph) (vars : List GuestVariable)
    (assigned : List (GuestVariable × Nat)) (cleared : List (Nat × ValueType)) (result : Graph) :
    Prop where
  own : OwnLocals vars graph.locals.count assigned
  blocks : ∀ ⦃b : Nat⦄ ⦃block : Block⦄, graph.blocks[b]? = some block →
    result.blocks[b]? = some { block with
      operations := if b = entry then
          afterLoads (clearing cleared) (block.operations.map (Operation.renameRegisters assigned))
        else block.operations.map (Operation.renameRegisters assigned) }
  size : result.size = graph.size
  cleared : ∀ ⦃block : Block⦄, graph.blocks[entry]? = some block →
    ∀ id, id ∈ cleared.map Prod.fst ↔ ∃ pair ∈ assigned, pair.2 = id ∧
      ¬∃ load ∈ block.argumentLoads, Defines load pair.1.register

theorem isLoadArgument_of_mem (hop : op ∈ block.argumentLoads) : op.instruction.isLoadArgument := by
  simpa using mem_takeWhile_imp hop

theorem argumentLoads_map (assigned : List (GuestVariable × Nat)) :
    (block.operations.map (Operation.renameRegisters assigned)).takeWhile
        (·.instruction.isLoadArgument) =
      block.argumentLoads.map (Operation.renameRegisters assigned) := by
  rw [takeWhile_map]
  rfl

/-- Neither the copies nor what is behind them belongs to the argument loads. -/
theorem takeWhile_loads (assigned : List (GuestVariable × Nat)) (cleared : List (Nat × ValueType))
    (hops : block.operations = block.argumentLoads ++ rest) :
    (block.argumentLoads.map (Operation.renameRegisters assigned) ++ clearing cleared ++
        rest.map (Operation.renameRegisters assigned)).takeWhile (·.instruction.isLoadArgument) =
      block.argumentLoads.map (Operation.renameRegisters assigned) := by
  have hloads : ∀ op ∈ block.argumentLoads, op.instruction.isLoadArgument :=
    fun op hop => isLoadArgument_of_mem hop
  have hrest : rest.takeWhile (·.instruction.isLoadArgument) = [] := by
    have hself : block.argumentLoads =
        block.argumentLoads ++ rest.takeWhile (·.instruction.isLoadArgument) := by
      rw [← takeWhile_append_of_pos hloads, ← hops]
      rfl
    exact self_eq_append_right.mp hself
  have hbehind : (clearing cleared ++ rest.map (Operation.renameRegisters assigned)).takeWhile
      (·.instruction.isLoadArgument) = [] := by
    cases cleared with
    | nil =>
      rw [clearing, map_nil, nil_append, takeWhile_map]
      exact map_eq_nil_iff.mpr hrest
    | cons pair others => rfl
  rw [append_assoc, takeWhile_append_of_pos, hbehind, append_nil]
  intro op hop
  obtain ⟨load, hload, rfl⟩ := mem_map.mp hop
  have hinsn := isLoadArgument_of_mem hload
  exact hinsn

/-- An argument load writes the local of a register if it writes the register. -/
theorem OwnLocals.mem_argumentLocals_iff (hown : OwnLocals vars floor assigned)
    (hlocals : ∀ op ∈ block.operations, ∀ id, op.destination.bind localId? = some id → id < floor)
    (hoccurs : ∀ op ∈ block.operations, ∀ reg, Defines op reg → Occurs vars reg)
    {pair : GuestVariable × Nat} (hpair : pair ∈ assigned) :
    pair.2 ∈ (block.argumentLoads.map (Operation.renameRegisters assigned)).filterMap
        (fun op => op.destination.bind localId?) ↔
      ∃ load ∈ block.argumentLoads, Defines load pair.1.register := by
  simp only [filterMap_map, mem_filterMap, Function.comp_def]
  refine exists_congr fun load => and_congr_right fun hload => ?_
  have hmem : load ∈ block.operations := takeWhile_subset _ hload
  have hlocal := hlocals load hmem
  have hoccur := hoccurs load hmem
  rcases hdest : load.destination with _ | ⟨bits, type⟩ | ⟨reg, type⟩ | ⟨id, type⟩
  · simp [Operation.renameRegisters, hdest, Defines]
  · simp [Operation.renameRegisters, hdest, Defines, renameRegister, localId?, register?]
  · obtain ⟨written, hwritten, rfl⟩ := hown.exists_entry
      (hoccur reg (by simp [Defines, hdest, register?]))
    have hid : (load.renameRegisters assigned).destination.bind localId? = some written.2 := by
      simp [Operation.renameRegisters, hdest, hown.renameRegister_eq hwritten, localId?]
    have hreg : Defines load pair.1.register ↔ written.1.register = pair.1.register := by
      simp [Defines, hdest, register?]
    rw [hid, hreg, Option.some_inj]
    constructor
    · intro h
      rw [inj_on_of_nodup_map hown.numbers hwritten hpair h]
    · intro h
      rw [inj_on_of_nodup_map hown.registers hwritten hpair h]
  · have hid : (load.renameRegisters assigned).destination.bind localId? = some id := by
      simp [Operation.renameRegisters, hdest, renameRegister, localId?]
    have hnone : ¬Defines load pair.1.register := by
      simp [Defines, hdest, register?]
    rw [hid]
    refine iff_of_false (fun h => ?_) hnone
    have hlow := hlocal id (by simp [hdest, localId?])
    have hnew := hown.new pair hpair
    have hsame : id = pair.2 := Option.some_inj.mp h
    omega

theorem renameRegisters_nil (op : Operation) : op.renameRegisters [] = op := by
  have hself : renameRegister [] = id := by
    funext opnd
    cases opnd <;> rfl
  cases op
  simp [Operation.renameRegisters, hself]

theorem localsForRegisters_self (graph : Graph) : LocalsForRegisters graph [] [] [] graph where
  own := ⟨rfl, nodup_nil, nodup_nil, by simp⟩
  blocks b block hblock := by
    have hself : block.operations.map (Operation.renameRegisters []) = block.operations :=
      (map_congr_left fun op _ => renameRegisters_nil op).trans (map_id _)
    rw [hblock, hself, clearing, map_nil, afterLoads_nil, ite_self]
  size := rfl
  cleared := by simp

/-- The graph with locals for its registers, before any of them is cleared. -/
def withLocals (graph : Graph) (vars : List GuestVariable) : Graph where
  blocks := graph.blocks.map fun block => { block with
    operations := block.operations.map
      (Operation.renameRegisters (GuestVariable.assign graph.locals vars).1) }
  locals := (GuestVariable.assign graph.locals vars).2

/-- The locals that no argument load writes. -/
def unloaded (graph : Graph) (vars : List GuestVariable) : List (Nat × ValueType) :=
  ((GuestVariable.assign graph.locals vars).1.filter fun pair =>
    !(withLocals graph vars).argumentLocals.contains pair.2).map fun pair => (pair.2, pair.1.type)

/-- What renaming yields, if it yields anything. -/
theorem of_renameRegisters (hrename : graph.renameRegisters = .ok result) :
    ∃ vars, collect graph = .ok vars ∧ (vars = [] ∧ result = graph ∨
        result = (withLocals graph vars).insertZeroInits (unloaded graph vars)) := by
  obtain ⟨vars, hcollect, hresult⟩ := of_bind hrename
  refine ⟨vars, hcollect, ?_⟩
  split at hresult
  next hempty =>
    cases hresult
    exact .inl ⟨isEmpty_iff.mp hempty, rfl⟩
  next =>
    cases hresult
    exact .inr rfl

theorem occurs_of_defines (hcollect : collect graph = .ok vars) (hop : op ∈ graph.operations)
    {reg : GuestRegister} (hdefs : Defines op reg) : Occurs vars reg := by
  obtain ⟨opnd, hdest, hreg⟩ := Option.bind_eq_some_iff.mp hdefs
  exact occurs_of_mem hcollect (mem_flatMap.mpr ⟨op, hop, mem_append_left _ (by simp [hdest])⟩) hreg

theorem mem_unloaded_iff (hfresh : Unconstructed graph) (hcollect : collect graph = .ok vars)
    (hown : OwnLocals vars graph.locals.count (GuestVariable.assign graph.locals vars).1)
    (hblock : graph.blocks[entry]? = some block) {id : Nat} :
    id ∈ (unloaded graph vars).map Prod.fst ↔
      ∃ pair ∈ (GuestVariable.assign graph.locals vars).1, pair.2 = id ∧
        ¬∃ load ∈ block.argumentLoads, Defines load pair.1.register := by
  have hloads : (withLocals graph vars).argumentLocals =
      (block.argumentLoads.map (Operation.renameRegisters
        (GuestVariable.assign graph.locals vars).1)).filterMap
          fun op => op.destination.bind localId? := by
    rw [← argumentLoads_map]
    simp only [argumentLocals, withLocals, Array.getElem?_map, hblock, Option.map_some,
      Block.argumentLoads]
  simp only [unloaded, hloads, map_map, mem_map, mem_filter, Bool.not_eq_true',
    Function.comp_def, contains_eq_mem, decide_eq_false_iff_not, and_assoc]
  refine exists_congr fun pair => and_congr_right fun hpair => ?_
  rw [hown.mem_argumentLocals_iff
    (fun op hop => (hfresh.plain hcollect (mem_operations hblock hop)).destination)
    (fun op hop reg => occurs_of_defines hcollect (mem_operations hblock hop)) hpair]
  exact and_comm

theorem exists_localsForRegisters (hfresh : Unconstructed graph)
    (hrename : graph.renameRegisters = .ok result) (hbound : result.locals.count ≤ 2 ^ 32) :
    ∃ vars assigned cleared, collect graph = .ok vars ∧
      LocalsForRegisters graph vars assigned cleared result := by
  obtain ⟨vars, hcollect, ⟨rfl, rfl⟩ | rfl⟩ := of_renameRegisters hrename
  · exact ⟨[], [], [], hcollect, localsForRegisters_self _⟩
  · have hown : OwnLocals vars graph.locals.count (GuestVariable.assign graph.locals vars).1 :=
      ownLocals_assign (collect_eq_ok hcollect).nodup (count_assign graph.locals vars ▸ hbound)
    refine ⟨vars, _, unloaded graph vars, hcollect, hown, fun b block hblock => ?_, ?_,
      fun block hblock id => mem_unloaded_iff hfresh hcollect hown hblock⟩
    · rw [insertZeroInits_eq, withLocals, Array.getElem?_map, hblock]
      rfl
    · exact Array.size_modify.trans Array.size_map

/-! ## Runs in step -/

/-- Leave out of every visit of a block `count` events behind the first `start`. -/
def skipEvents (b start count : Nat) (trace : Trace Value Memory) : Trace Value Memory :=
  { trace with
    visits := trace.visits.map fun visit =>
      if visit.block = b then
        { visit with events := visit.events.take start ++ visit.events.drop (start + count) }
      else visit }

/-- What is left of the events of a block. -/
def skipping (start count : Nat) (b : Nat) : View Value Memory := fun events =>
  if b = entry then events.take start ++ events.drop (start + count) else events

theorem observe_skipEvents (start count : Nat) (trace : Trace Value Memory) :
    (skipEvents entry start count trace).observe = shown (skipping start count) trace := by
  simp only [skipEvents, Trace.observe, shown, map_map]
  congr 1
  refine map_congr_left fun visit _ => ?_
  by_cases hb : visit.block = entry <;> simp [skipping, hb]

theorem substitutesAll_of_subset (hfresh : Unconstructed graph)
    (hcollect : collect graph = .ok vars) (hown : OwnLocals vars graph.locals.count assigned)
    {ops : List Operation} (hops : ops ⊆ graph.operations) :
    SubstitutesAll [] graph.locals.count (homes assigned) ops
      (ops.map (Operation.renameRegisters assigned)) (homes assigned) :=
  hown.substitutesAll fun op hop => ⟨hfresh.phis op (hops hop), fun _ hopnd _ =>
    occurs_of_mem hcollect (mem_flatMap.mpr ⟨op, hops hop, hopnd⟩)⟩

namespace LocalsForRegisters

variable {cleared : List (Nat × ValueType)}
  (hlocals : LocalsForRegisters graph vars assigned cleared result)
include hlocals

variable {first second : State Value Memory} {block : Block}

/-- The entry block: renamed loads, the copies that clear locals, and the renamed rest. -/
theorem exists_entry (hblock : graph.blocks[entry]? = some block) :
    ∃ rest block', block.operations = block.argumentLoads ++ rest ∧
      result.blocks[entry]? = some block' ∧ block'.successors = block.successors ∧
      block'.argumentLoads = block.argumentLoads.map (Operation.renameRegisters assigned) ∧
      block'.operations = block.argumentLoads.map (Operation.renameRegisters assigned) ++
        clearing cleared ++ rest.map (Operation.renameRegisters assigned) := by
  have hops : block.operations = block.argumentLoads ++
      block.operations.dropWhile (·.instruction.isLoadArgument) :=
    (takeWhile_append_dropWhile ..).symm
  refine ⟨_, _, hops, hlocals.blocks hblock, rfl, ?_, ?_⟩
  · rw [Block.argumentLoads, if_pos rfl, afterLoads, argumentLoads_map, dropWhile_map]
    exact takeWhile_loads assigned cleared hops
  · rw [if_pos rfl, afterLoads, argumentLoads_map, dropWhile_map]
    rfl

/-- Once the locals that no load writes are cleared, all registers have their values in
their locals. -/
theorem agrees_cleared (hblock : graph.blocks[entry]? = some block) {second' : State Value Memory}
    (hagrees : Agrees (fun reg => False ∨ ∃ load ∈ block.argumentLoads, Defines load reg)
      (fun _ => False) [] graph.locals.count (homes assigned) first second)
    (hunwritten : ∀ reg, (∀ load ∈ block.argumentLoads, ¬Defines load reg) →
      first.registers reg = interp.zero) (hmemory : second'.memory = second.memory)
    (hclear : ∀ id, second'.locals id =
      if id ∈ cleared.map Prod.fst then interp.zero else second.locals id) :
    Agrees (fun _ => True) (Occurs vars) [] graph.locals.count (homes assigned) first second' := by
  refine ⟨hmemory.trans hagrees.memory, fun id hid => ?_, fun reg id _ hlookup => ?_,
    fun _ _ _ _ h => by cases h⟩
  · rw [hclear, if_neg, hagrees.locals id hid]
    intro hmem
    obtain ⟨pair, hpair, rfl, -⟩ := (hlocals.cleared hblock id).mp hmem
    have := hlocals.own.new pair hpair
    omega
  · obtain ⟨pair, hpair, rfl, rfl⟩ := exists_of_lookup hlookup
    rw [hclear]
    by_cases hload : ∃ load ∈ block.argumentLoads, Defines load pair.1.register
    · rw [if_neg]
      · exact hagrees.bound (.inr hload) hlookup
      · intro hid
        obtain ⟨other, hother, hsame, hnot⟩ := (hlocals.cleared hblock pair.2).mp hid
        rw [inj_on_of_nodup_map hlocals.own.numbers hother hpair hsame] at hnot
        exact hnot hload
    · rw [if_pos ((hlocals.cleared hblock pair.2).mpr ⟨pair, hpair, rfl, hload⟩),
        hunwritten _ fun load hmem hdefs => hload ⟨load, hmem, hdefs⟩]

variable (hfresh : Unconstructed graph) (hcollect : collect graph = .ok vars)
  (hchecked : ∀ ⦃b : Nat⦄ ⦃block : Block⦄, graph.blocks[b]? = some block → Validate.Checked block)
  (hinner : ∀ b, graph.Reachable b → ¬graph.Edge b entry)
include hfresh hcollect hchecked hinner

/-- Runs in step from a block on that is not the entry. -/
theorem shown_run_inner {start count : Nat} (bound : Nat) (hreach : graph.Reachable b)
    (hb : b ≠ entry)
    (hagrees : Agrees (fun _ => True) (Occurs vars) [] graph.locals.count (homes assigned) first
      second) (arrival arrival' : Option (Nat × State Value Memory)) :
    shown (skipping start count) (run interp args result bound ⟨b, arrival', second⟩) =
      (run interp args graph bound ⟨b, arrival, first⟩).observe := by
  induction bound generalizing b first second arrival arrival' with
  | zero => simp only [run, shown, Trace.observe, hagrees.memory]; rfl
  | succ bound ih =>
    cases hblock : graph.blocks[b]? with
    | none =>
      have hblock' : result.blocks[b]? = none := by
        rw [Array.getElem?_eq_none_iff] at hblock ⊢
        exact hlocals.size.le.trans hblock
      simp only [run, move, hblock, hblock']
      rfl
    | some block =>
      have hblock' := hlocals.blocks hblock
      rw [if_neg hb] at hblock'
      have hops : ∀ {operations}, ({ block with operations } : Block).operations =
        [] ++ operations := rfl
      obtain ⟨last, events, last', events', hlast, hlast', hseen, hleave, hmemory, hgo⟩ :=
        hagrees.finish interp args arrival arrival' (hchecked hblock)
          (nil_append _).symm hops (by simp) (by simp)
          (substitutesAll_of_subset hfresh hcollect hlocals.own fun op => mem_operations hblock)
          hlocals.own.atLeast_homes (fun _ _ h => by cases h)
          fun op hop => hfresh.plain hcollect (mem_operations hblock hop)
      have hpasses : Passes interp args (skipping start count b) (Occurs vars) []
          graph.locals.count (homes assigned) block _ arrival arrival' first second last last' events
          events' := ⟨hlast, hlast', by rw [skipping, if_neg hb, hseen], hleave, hmemory, hgo⟩
      refine hpasses.shown_run hblock hblock' rfl fun target htarget hagrees' => ?_
      have hedge : graph.Edge b target := by rwa [Edge, successors_eq hblock]
      exact ih (hreach.step hedge) (fun h => hinner b hreach (h ▸ hedge)) hagrees' _ _

theorem shown_run (hblock : graph.blocks[entry]? = some block)
    (hzero : ∀ type, interp.constant 0 type = interp.zero) (bound : Nat)
    (hregisters : ∀ reg, first.registers reg = interp.zero)
    (hmemory : second.memory = first.memory)
    (hsame : ∀ id < graph.locals.count, second.locals id = first.locals id) :
    shown (skipping block.argumentLoads.length cleared.length)
        (run interp args result bound (start second)) =
      (run interp args graph bound (start first)).observe := by
  cases bound with
  | zero => simp only [run, start, shown, Trace.observe, hmemory]; rfl
  | succ bound =>
    obtain ⟨rest, block', hops, hblock', hsuccs, -, hops'⟩ := hlocals.exists_entry hblock
    have hstart : Agrees (fun _ => False) (fun _ => False) [] graph.locals.count (homes assigned)
        first second := ⟨hmemory, hsame, fun _ _ h => h.elim, fun _ _ h => h.elim⟩
    have hsubset : ∀ {ops : List Operation}, ops ⊆ block.operations → ops ⊆ graph.operations :=
      fun hops op hop => mem_operations hblock (hops hop)
    have hpasses : ∃ last last' events events', Passes interp args
        (skipping block.argumentLoads.length cleared.length entry) (Occurs vars) []
        graph.locals.count (homes assigned) block block' none none first second last last' events
        events' := by
      refine hstart.passes_entry interp args (hchecked hblock) hzero hops hops'
        (fun op hop => isLoadArgument_of_mem hop)
        (fun op hop => hfresh.plain hcollect (mem_operations hblock hop))
        (substitutesAll_of_subset hfresh hcollect hlocals.own (hsubset (takeWhile_subset _)))
        (substitutesAll_of_subset hfresh hcollect hlocals.own
          (hsubset (hops ▸ subset_append_right _ _)))
        hlocals.own.atLeast_homes (fun _ _ h => by cases h) ?_ ?_
      · intro first' second₁ second₂ hagrees hkept hmemory hclear
        refine hlocals.agrees_cleared hblock hagrees (fun reg hnot => ?_) hmemory hclear
        rw [hkept reg hnot, hregisters]
      · intro front inits back hfront hinits _ _ _
        rw [skipping, if_pos rfl, ← hfront, ← hinits, append_assoc, take_left,
          ← append_assoc, ← length_append, drop_left]
    obtain ⟨last, last', events, events', hpasses⟩ := hpasses
    refine hpasses.shown_run hblock hblock' hsuccs fun target htarget hagrees => ?_
    have hedge : graph.Edge entry target := by rwa [Edge, successors_eq hblock]
    exact hlocals.shown_run_inner hfresh hcollect hchecked hinner bound
      (Reachable.entry.step hedge) (fun h => hinner entry .entry (h ▸ hedge)) hagrees _ _

end LocalsForRegisters

/-! ## Graphs that pass the checks -/

theorem lt_size_of_validate (hvalid : graph.validate sig = .ok ()) {a : Nat}
    (hedge : graph.Edge a b) : b < graph.size := by
  have hblocks : graph.blocks.toList.forM (Validate.block graph sig) = .ok () := by
    unfold Graph.validate at hvalid
    split at hvalid
    next => simp [unsupported] at hvalid
    next =>
      obtain ⟨⟨⟩, hblocks, -⟩ := of_bind hvalid
      exact hblocks
  obtain ⟨block, hblock⟩ := exists_block (source_lt_size hedge)
  have hcheck := forM_eq_ok.mp hblocks block (mem_blocks_iff.mpr ⟨a, hblock⟩)
  obtain ⟨⟨⟩, hedges, -⟩ := of_bind hcheck
  rw [Edge, successors_eq hblock] at hedge
  unfold Validate.edges at hedges
  split at hedges
  next => simp [unsupported] at hedges
  next =>
    split at hedges
    next => simp [unsupported] at hedges
    next hnone => simpa using find?_eq_none.mp hnone b hedge

/-- A graph that passes the checks does not go back to its entry, if the entry knows of all
edges into it. -/
theorem not_edge_entry (hvalid : graph.validate sig = .ok ())
    (hknown : ∀ b, graph.Edge b entry → b ∈ graph.predecessors entry) (hreach : graph.Reachable b) :
    ¬graph.Edge b entry := by
  intro hedge
  obtain ⟨hsize, -, hentry⟩ := Validate.of_validate hvalid
  obtain ⟨order, hpost, horder⟩ := exists_postorder hsize (lt_size_of_validate hvalid)
  exact hentry hpost b (hknown b hedge) ((horder b).mpr hreach)

namespace LocalsForRegisters

variable {cleared : List (Nat × ValueType)}
  (hlocals : LocalsForRegisters graph vars assigned cleared result)
include hlocals

variable {op : Operation}

/-- Every operation of the result is a renamed one or clears a local. -/
theorem mem_operations_cases (hop : op ∈ result.operations) :
    (∃ old ∈ graph.operations, op = old.renameRegisters assigned) ∨ op ∈ clearing cleared := by
  obtain ⟨block', hmem, hop⟩ := mem_flatMap.mp hop
  obtain ⟨b, hblock'⟩ := mem_blocks_iff.mp hmem
  obtain ⟨block, hblock⟩ := exists_block (hlocals.size ▸ lt_size hblock')
  have hold : ∀ old ∈ block.operations, op = old.renameRegisters assigned →
      (∃ old ∈ graph.operations, op = old.renameRegisters assigned) ∨ op ∈ clearing cleared :=
    fun old hmem heq => .inl ⟨old, mem_operations hblock hmem, heq⟩
  by_cases hb : b = entry
  · subst hb
    obtain ⟨rest, new, hops, hentry, -, -, hops'⟩ := hlocals.exists_entry hblock
    obtain rfl := Option.some_inj.mp (hblock'.symm.trans hentry)
    simp only [hops', mem_append, mem_map] at hop
    obtain (⟨old, hmem, rfl⟩ | hinit) | ⟨old, hmem, rfl⟩ := hop
    · exact hold old (hops ▸ mem_append_left _ hmem) rfl
    · exact .inr hinit
    · exact hold old (hops ▸ mem_append_right _ hmem) rfl
  · have hinner := hlocals.blocks hblock
    rw [if_neg hb] at hinner
    obtain rfl := Option.some_inj.mp (hblock'.symm.trans hinner)
    obtain ⟨old, hmem, rfl⟩ := mem_map.mp hop
    exact hold old hmem rfl

theorem register?_of_mem (hcollect : collect graph = .ok vars) (hop : op ∈ result.operations)
    {opnd : Operand} (hopnd : opnd ∈ op.operands) : opnd.register? = none := by
  rcases hlocals.mem_operations_cases hop with ⟨old, hold, rfl⟩ | hinit
  · have hmem : opnd ∈ old.operands.map (renameRegister assigned) := by
      cases hdest : old.destination <;>
        simpa [Operation.operands, Operation.renameRegisters, hdest] using hopnd
    obtain ⟨before, hbefore, rfl⟩ := mem_map.mp hmem
    exact hlocals.own.register?_renameRegister fun reg hreg =>
      occurs_of_mem hcollect (mem_flatMap.mpr ⟨old, hold, hbefore⟩) hreg
  · obtain ⟨pair, -, rfl⟩ := mem_map.mp hinit
    rcases mem_cons.mp hopnd with rfl | hsrc
    · rfl
    · rw [mem_singleton.mp hsrc]
      rfl

/-- What is cleared is a new local, and no argument load writes it. -/
theorem of_mem_clearing (hfresh : Unconstructed graph) (hcollect : collect graph = .ok vars)
    (hblock : graph.blocks[entry]? = some block) (hop : op ∈ clearing cleared) :
    ∃ id type, op = .copy (.localVar id type) (.zero type) ∧ graph.locals.count ≤ id ∧
      ∀ load ∈ block.argumentLoads.map (Operation.renameRegisters assigned),
        load.destination.bind localId? ≠ some id := by
  obtain ⟨⟨id, type⟩, hmem, rfl⟩ := mem_map.mp hop
  obtain ⟨pair, hpair, rfl, hnot⟩ := (hlocals.cleared hblock id).mp (mem_map_of_mem hmem)
  refine ⟨pair.2, type, rfl, hlocals.own.new pair hpair, fun load hload hid => hnot ?_⟩
  refine (hlocals.own.mem_argumentLocals_iff
    (fun op hop => (hfresh.plain hcollect (mem_operations hblock hop)).destination)
    (fun op hop reg => occurs_of_defines hcollect (mem_operations hblock hop)) hpair).mp ?_
  exact mem_filterMap.mpr ⟨load, hload, hid⟩

end LocalsForRegisters

/-- Renaming keeps what a run shows. The only operations of its own are behind the argument
loads of the entry, where it clears locals that no load writes. -/
theorem renameRegisters_refines {sig : Validate.Signature}
    (hvalid : graph.validate sig = .ok ())
    (hentry : ∀ b, graph.Edge b entry → b ∈ graph.predecessors entry)
    (hfresh : Unconstructed graph) (hrename : graph.renameRegisters = .ok result)
    (hbound : result.locals.count ≤ 2 ^ 32) :
    (∀ op ∈ result.operations, ∀ opnd ∈ op.operands, opnd.register? = none) ∧
      ∃ block block' inits rest,
        graph.blocks[entry]? = some block ∧ result.blocks[entry]? = some block' ∧
        block'.operations = block'.argumentLoads ++ inits ++ rest ∧
        block'.argumentLoads.length = block.argumentLoads.length ∧
        rest.length + block.argumentLoads.length = block.operations.length ∧
        (∀ op ∈ inits, ∃ id type, op = .copy (.localVar id type) (.zero type) ∧
          graph.locals.count ≤ id ∧ ∀ load ∈ block'.argumentLoads,
            load.destination.bind Operand.localId? ≠ some id) ∧
        ∀ (Value Memory : Type) (interp : Interpretation Value Memory) (args : List Value)
          (first second : State Value Memory) (bound : Nat),
          (∀ type, interp.constant 0 type = interp.zero) →
          (∀ reg, first.registers reg = interp.zero) →
          second.memory = first.memory →
          (∀ id < graph.locals.count, second.locals id = first.locals id) →
          (skipEvents entry block.argumentLoads.length inits.length
              (run interp args result bound (start second))).observe =
            (run interp args graph bound (start first)).observe := by
  obtain ⟨vars, assigned, cleared, hcollect, hlocals⟩ :=
    exists_localsForRegisters hfresh hrename hbound
  obtain ⟨hsize, hchecked, -⟩ := Validate.of_validate hvalid
  obtain ⟨block, hblock⟩ := exists_block hsize
  obtain ⟨rest, block', hops, hblock', -, hloads, hops'⟩ := hlocals.exists_entry hblock
  refine ⟨fun op hop opnd hopnd => hlocals.register?_of_mem hcollect hop hopnd, block,
    block', clearing cleared, rest.map (Operation.renameRegisters assigned), hblock, hblock', ?_⟩
  rw [hloads]
  refine ⟨hops', List.length_map .., ?_, fun op hop =>
    hlocals.of_mem_clearing hfresh hcollect hblock hop, ?_⟩
  · rw [List.length_map, Nat.add_comm, ← List.length_append]
    exact congrArg List.length hops.symm
  · intro Value Memory interp args first second bound hzero hregisters hmemory hsame
    rw [clearing, List.length_map, observe_skipEvents]
    exact hlocals.shown_run hfresh hcollect (fun _ _ => hchecked)
      (fun b => not_edge_entry hvalid hentry) hblock hzero bound hregisters hmemory hsame

/-- A loop that counts an argument down by a local, to a register that was never written. -/
def argumentCountdown : Graph where
  blocks := countdown.blocks.modify entry fun block => { block with
    operations := [
      .compute (.loadArgument 0) (.guest 0) [],
      .copy (.localVar 0 .i64) (.constant 2 .i64), .branch] }
  locals := countdown.locals

/-- The loop over locals, of which only the one that is not an argument is cleared. -/
def renamedCountdown : Graph := argumentCountdown.rewritten
  [[.compute (.loadArgument 0) (.localVar 1 .i64) [],
      .copy (.localVar 2 .i64) (.zero .i64), .copy (.localVar 0 .i64) (.constant 2 .i64), .branch],
    [.compute .sub (.localVar 1 .i64) [.localVar 1 .i64, .localVar 0 .i64],
      .branchIf .ne (.localVar 1 .i64) (.localVar 2 .i64)],
    [.ret (.localVar 1 .i64)]] ⟨.replicate 3 (some .i64)⟩

theorem renameRegisters_refines_argumentCountdown :
    argumentCountdown.validate ⟨[.i64], some .i64⟩ = .ok () ∧
      argumentCountdown.renameRegisters = .ok renamedCountdown ∧
      (∀ op ∈ renamedCountdown.operations, ∀ opnd ∈ op.operands, opnd.register? = none) ∧
      ∃ block block' inits rest, argumentCountdown.blocks[entry]? = some block ∧
        renamedCountdown.blocks[entry]? = some block' ∧
        block'.operations = block'.argumentLoads ++ inits ++ rest ∧
        (∀ op ∈ inits, ∃ id type, op = .copy (.localVar id type) (.zero type)) ∧
        ∀ bound, (skipEvents entry block.argumentLoads.length inits.length
            (run numbers [6] renamedCountdown bound (start zeroed))).observe =
          (run numbers [6] argumentCountdown bound (start zeroed)).observe := by
  have hvalid : argumentCountdown.validate ⟨[.i64], some .i64⟩ = .ok () := by cbv
  have hrename : argumentCountdown.renameRegisters = .ok renamedCountdown := by decide +kernel
  have hentry : ∀ b, argumentCountdown.Edge b entry → b ∈ argumentCountdown.predecessors entry := by
    intro b hedge
    rcases b with _ | _ | _ | b <;>
      simp [Edge, argumentCountdown, countdown, Graph.successors, entry] at hedge
  obtain ⟨hfree, block, block', inits, rest, hblock, hblock', hops, -, -, hinits, hrefines⟩ :=
    renameRegisters_refines hvalid hentry ⟨by decide, by decide⟩ hrename (by decide)
  refine ⟨hvalid, hrename, hfree, block, block', inits, rest, hblock, hblock', hops,
    fun op hop => ?_, fun bound => hrefines Nat Unit numbers [6] zeroed zeroed bound
      (fun _ => rfl) (fun _ => rfl) rfl fun _ _ => rfl⟩
  obtain ⟨id, type, hcopy, -⟩ := hinits op hop
  exact ⟨id, type, hcopy⟩

/-- A register that is passed on from one round of the entry block to the next. -/
def reentered : Graph where
  blocks := #[
    { index := 0
      operations := [.copy (.guest 1) (.guest 0),
        .copy (.guest 0) (.constant 5 .i64), .branch]
      successors := [1] },
    { index := 1
      operations := [.branchIf .ne (.guest 1) (.constant 5 .i64)]
      successors := [2, 0]
      predecessors := [0] },
    { index := 2
      operations := [.ret (.guest 1)]
      predecessors := [1] }]

def renamedReentered : Graph := reentered.rewritten
  [[.copy (.localVar 0 .i64) (.zero .i64), .copy (.localVar 1 .i64) (.zero .i64),
      .copy (.localVar 0 .i64) (.localVar 1 .i64), .copy (.localVar 1 .i64) (.constant 5 .i64),
      .branch],
    [.branchIf .ne (.localVar 0 .i64) (.constant 5 .i64)],
    [.ret (.localVar 0 .i64)]] ⟨.replicate 2 (some .i64)⟩

/-- Numbers, and branches that are taken if the two sides differ. -/
def unequalNumbers : Interpretation Nat Unit :=
  { numbers with slot := fun _ _ vals _ => if vals[0]? = vals[1]? then 0 else 1 }

/-- The checks look for edges into the entry among its predecessors. The second time around the
renamed entry block clears the local again that holds the register. -/
theorem renameRegisters_reentered_differs :
    reentered.validate ⟨[], some .i64⟩ = .ok () ∧ Unconstructed reentered ∧
      reentered.renameRegisters = .ok renamedReentered ∧
      (run unequalNumbers [] reentered 5 (start zeroed)).ending =
        .returned [5] () ∧
      (run unequalNumbers [] renamedReentered 5 (start zeroed)).ending =
        .running 1 () :=
  ⟨by cbv, ⟨by decide, by decide⟩, by decide +kernel, rfl, rfl⟩

end GraphJit.SSA
