import GraphJit.Proofs.Construction
import GraphJit.Proofs.Simulation

/-! # Running renamed operations

Original and renamed operations run in step. At every point the local in scope for a
register holds the value of the register, and a register without a local in scope has
not been written yet, so that its cleared local stands for it.
-/

namespace GraphJit.SSA

open GraphJit.Graph Machine List

variable {Value Memory : Type} {interp : Interpretation Value Memory} {args : List Value}

/-! ## One operation -/

/-- Result and memory effect of an operation from what it reads. -/
def effect (interp : Interpretation Value Memory) (args : List Value)
    (instr : Instruction) (dest : Option ValueType) (sources : List ValueType)
    (vals : List Value) (memory : Memory) : Value × Memory :=
  match instr, vals with
  | .copy, [value] => (value, memory)
  | _, _ => interp.compute instr dest sources vals args memory

/-- What an operation computes in a state. -/
def effectOf (interp : Interpretation Value Memory) (args : List Value)
    (state : State Value Memory) (op : Operation) : Value × Memory :=
  effect interp args op.instruction (op.destination.map Operand.type)
    (op.sources.map Operand.type) (op.sources.map (state.read interp)) state.memory

theorem apply_eq_write (state : State Value Memory) (op : Operation) : apply interp args state op =
      { state with memory := (effectOf interp args state op).2 }.write op.destination
        (effectOf interp args state op).1 := by
  unfold apply effectOf
  split
  next src hinsn hsrcs => simp [hinsn, hsrcs, effect]
  next hother =>
    have heffect : effect interp args op.instruction (op.destination.map Operand.type)
        (op.sources.map Operand.type) (op.sources.map (state.read interp)) state.memory =
        interp.compute op.instruction (op.destination.map Operand.type)
          (op.sources.map Operand.type) (op.sources.map (state.read interp)) args
          state.memory := by
      unfold effect
      split
      next value hinsn hvalues =>
        obtain ⟨src, hsrc, -⟩ := map_eq_singleton_iff.mp hvalues
        exact absurd hsrc (hother src hinsn)
      next => rfl
    rw [heffect]

/-- The variables of two runs, the second over locals. Registers agree with the local in
scope, or, if there is none, with the cleared one, as far as the two conditions go. -/
structure Agrees (inScope outside : GuestRegister → Prop) (zeros : Scope) (floor : Nat)
    (scope : Scope) (first second : State Value Memory) : Prop where
  memory : second.memory = first.memory
  locals : ∀ id < floor, second.locals id = first.locals id
  bound : ∀ ⦃reg id⦄, inScope reg → scope.lookup reg = some id →
    second.locals id = first.registers reg
  cleared : ∀ ⦃reg id⦄, outside reg → scope.lookup reg = none →
    zeros.lookup reg = some id → second.locals id = first.registers reg

namespace Agrees

variable {inScope outside : GuestRegister → Prop} {zeros scope : Scope} {floor : Nat}
  {first second : State Value Memory}

variable (hagrees : Agrees inScope outside zeros floor scope first second)
include hagrees

theorem read {opnd : Operand} (hres : Resolved zeros scope opnd)
    (hlocal : ∀ id, opnd.localId? = some id → id < floor)
    (hreg : ∀ reg, opnd.register? = some reg → inScope reg ∧ outside reg) :
    second.read interp (resolve zeros scope opnd) = first.read interp opnd := by
  rcases resolve_cases zeros scope opnd with ⟨reg, _, id, rfl, hid, hown⟩ | ⟨hsame, hnone⟩
  · obtain ⟨hin, hout⟩ := hreg reg rfl
    rw [hid]
    exact hown.elim (hagrees.bound hin) fun h => hagrees.cleared hout h.1 h.2
  · rw [hsame]
    cases opnd with
    | constant bits type => rfl
    | localVar id type => exact hagrees.locals id (hlocal id rfl)
    | register reg type => cases hnone hres

/-- Both runs write the same variable. -/
theorem write (hscope : ∀ ⦃reg id⦄, scope.lookup reg = some id → floor ≤ id)
    (hzeros : ∀ ⦃reg id⦄, zeros.lookup reg = some id → floor ≤ id)
    {dest : Option Operand} (hdest : dest.bind Operand.register? = none)
    (hlocal : ∀ id, dest.bind Operand.localId? = some id → id < floor) (value : Value)
    (memory : Memory) : Agrees inScope outside zeros floor scope
      ({ first with memory }.write dest value)
      ({ second with memory }.write dest value) := by
  match dest with
  | none => exact ⟨rfl, hagrees.locals, hagrees.bound, hagrees.cleared⟩
  | some (.constant bits type) => exact ⟨rfl, hagrees.locals, hagrees.bound, hagrees.cleared⟩
  | some (.register reg type) => simp [Operand.register?] at hdest
  | some (.localVar own type) =>
    have hown : own < floor := hlocal own rfl
    have hother : ∀ {id}, floor ≤ id →
        (State.write { second with memory } (some (.localVar own type)) value).locals id =
          second.locals id := by
      intro id hid
      exact if_neg (by omega)
    refine ⟨rfl, fun id hid => ?_, fun reg id hin hid => ?_, fun reg id hout hnone hid => ?_⟩
    · simp only [State.write]
      split
      next => rfl
      next => exact hagrees.locals id hid
    · rw [hother (hscope hid)]
      exact hagrees.bound hin hid
    · rw [hother (hzeros hid)]
      exact hagrees.cleared hout hnone hid

theorem mono {fewer : GuestRegister → Prop} (hfewer : ∀ reg, fewer reg → inScope reg)
    : Agrees fewer outside zeros floor scope first second :=
  ⟨hagrees.memory, hagrees.locals, fun reg _ h => hagrees.bound (hfewer reg h), hagrees.cleared⟩

/-- One run writes a register, and the other a local that stands for nothing else. -/
theorem define {id : Nat} {reg : GuestRegister} {next : Scope} (hfloor : floor ≤ id)
    (hscope : ∀ other, other ≠ reg → scope.lookup other ≠ some id)
    (hzeros : ∀ other, zeros.lookup other ≠ some id)
    (hnext : ∀ other, next.lookup other = if other = reg then some id else scope.lookup other)
    (type : ValueType) (value : Value) (memory : Memory) :
    Agrees (fun other => inScope other ∨ other = reg) outside zeros floor next
      ({ first with memory }.write (some (.register reg type)) value)
      ({ second with memory }.write (some (.localVar id type)) value) := by
  have hother : ∀ {other}, other ≠ id →
      (State.write { second with memory } (some (.localVar id type)) value).locals other =
        second.locals other := fun h => if_neg h
  have hreg : ∀ {other}, other ≠ reg →
      (State.write { first with memory } (some (.register reg type)) value).registers other =
        first.registers other := fun h => if_neg h
  refine ⟨rfl, fun own hown => ?_, fun other number hin hnumber => ?_,
    fun other number hout hnone hnumber => ?_⟩
  · rw [hother (by omega)]
    exact hagrees.locals own hown
  · rw [hnext] at hnumber
    split at hnumber
    next heq =>
      cases hnumber
      simp [State.write, heq]
    next hne =>
      rw [hother fun h => hscope other hne (h ▸ hnumber), hreg hne]
      exact hagrees.bound (hin.resolve_right hne) hnumber
  · rw [hnext] at hnone
    split at hnone
    next => simp at hnone
    next hne =>
      rw [hother fun h => hzeros other (h ▸ hnumber), hreg hne]
      exact hagrees.cleared hout hnone hnumber

end Agrees

theorem type_resolve (zeros scope : Scope) (opnd : Operand) :
    (resolve zeros scope opnd).type = opnd.type := by
  rcases resolve_cases zeros scope opnd with ⟨_, _, _, rfl, hlocal, -⟩ | ⟨hsame, -⟩
  · rw [hlocal]
    rfl
  · rw [hsame]

theorem map_type_readSources (zeros scope : Scope) (op : Operation) :
    (readSources zeros scope op).map Operand.type = op.sources.map Operand.type := by
  unfold readSources
  split
  next => rfl
  next => simp [Function.comp_def, type_resolve]

/-- One operation over locals in place of one over registers. A definition makes a local
stand for its register that stands for nothing else. -/
inductive Substitutes (zeros : Scope) (floor : Nat) (scope : Scope) (op : Operation) :
    Operation → Scope → Prop where
  | keep (hdest : op.destination.bind Operand.register? = none)
      (hsrcs : op.isPhi = false → ∀ src ∈ op.sources, Resolved zeros scope src) :
      Substitutes zeros floor scope op { op with sources := readSources zeros scope op } scope
  | define {reg : GuestRegister} {type : ValueType} {id : Nat} {next : Scope}
      (hdest : op.destination = some (.register reg type)) (hfloor : floor ≤ id)
      (hscope : ∀ other, other ≠ reg → scope.lookup other ≠ some id)
      (hzeros : ∀ other, zeros.lookup other ≠ some id)
      (hnext : ∀ other, next.lookup other =
        if other = reg then some id else scope.lookup other)
      (hsrcs : op.isPhi = false → ∀ src ∈ op.sources, Resolved zeros scope src) :
      Substitutes zeros floor scope op
        { op with
          sources := readSources zeros scope op
          destination := some (.localVar id type) } next

/-- Operations over locals in place of others, in order. -/
inductive SubstitutesAll (zeros : Scope) (floor : Nat) :
    Scope → List Operation → List Operation → Scope → Prop where
  | nil {scope : Scope} : SubstitutesAll zeros floor scope [] [] scope
  | cons {scope next last : Scope} {op new : Operation} {rest others : List Operation}
      (hop : Substitutes zeros floor scope op new next)
      (hrest : SubstitutesAll zeros floor next rest others last) :
      SubstitutesAll zeros floor scope (op :: rest) (new :: others) last

/-- All numbers in a scope are new. -/
def AtLeast (floor : Nat) (scope : Scope) : Prop :=
  ∀ ⦃reg id⦄, scope.lookup reg = some id → floor ≤ id

variable {inScope outside : GuestRegister → Prop} {zeros scope next : Scope} {floor low high : Nat}
  {first second : State Value Memory} {arrival arrival' : Option (Nat × State Value Memory)}

variable {op new : Operation} {ops front : List Operation} {last : Scope} {block block' : Block}
  {known : GuestRegister → Prop} {reg : GuestRegister}

theorem RenamesOne.substitutes (hop : RenamesOne zeros low high scope op new next)
    (hlow : floor ≤ low) : Substitutes zeros floor scope op new next := by
  cases hop with
  | keep hdest hsrcs => exact .keep hdest hsrcs
  | define hdest hid _ hscope hzeros hsrcs =>
    exact .define hdest (hlow.trans hid) (fun other _ => hscope other) hzeros
      (fun other => lookup_cons ..) hsrcs

theorem Renames.substitutes {new : List Operation}
    (hren : Renames zeros low high scope ops new last) (hlow : floor ≤ low) :
    SubstitutesAll zeros floor scope ops new last := by
  induction hren with
  | nil => exact .nil
  | cons hle hop _ ih => exact .cons (hop.substitutes hlow) (ih (hlow.trans hle))

section

variable (hop : Substitutes zeros floor scope op new next)
include hop

theorem Substitutes.atLeast (hscope : AtLeast floor scope) : AtLeast floor next := by
  cases hop with
  | keep => exact hscope
  | define _ hfloor _ _ hnext =>
    intro other number hnumber
    rw [hnext] at hnumber
    split at hnumber
    next =>
      cases hnumber
      exact hfloor
    next => exact hscope hnumber

/-- The parts of an operation that renaming does not touch. -/
theorem Substitutes.same : new.instruction = op.instruction ∧
      new.destination.map Operand.type = op.destination.map Operand.type ∧
      new.sources = readSources zeros scope op := by
  cases hop with
  | keep => exact ⟨rfl, rfl, rfl⟩
  | define hdest => exact ⟨rfl, by simp [hdest, Operand.type], rfl⟩

theorem Substitutes.observe_record (hphi : op.isPhi = false)
    (hmemory : second.memory = first.memory)
    (hvalues : (readSources zeros scope op).map (second.read interp) =
      op.sources.map (first.read interp)) :
    (record interp second new).map Event.observe = (record interp first op).map Event.observe := by
  obtain ⟨hinsn, hdest, hsrcs⟩ := hop.same
  have hphi' : new.isPhi = false := by rwa [Operation.isPhi, hinsn]
  simp [record, hphi, hphi', Event.observe, hinsn, hdest, hsrcs, hvalues, hmemory,
    map_type_readSources]

end

variable (interp args arrival arrival') in
/-- Operations other than phis and terminators have the same effect, and what they write
agrees afterwards. -/
theorem Agrees.execute (hagrees : Agrees inScope outside zeros floor scope first second)
    (hop : Substitutes zeros floor scope op new next) (hscope : AtLeast floor scope)
    (hzeros : AtLeast floor zeros) (hphi : op.isPhi = false)
    (hterm : op.instruction.isTerminator = false)
    (hlocal : ∀ id, op.destination.bind Operand.localId? = some id → id < floor)
    (hvalues : (readSources zeros scope op).map (second.read interp) =
      op.sources.map (first.read interp)) :
    ∃ first' second', Machine.execute interp args arrival first op = some first' ∧
      Machine.execute interp args arrival' second new = some second' ∧
      Agrees (fun reg => inScope reg ∨ Defines op reg) outside zeros floor next
        first' second' := by
  obtain ⟨hinsn, hdest, hsrcs⟩ := hop.same
  have hphi' : new.isPhi = false := by rwa [Operation.isPhi, hinsn]
  have heffect : effectOf interp args second new = effectOf interp args first op := by
    simp only [effectOf, hinsn, hdest, hsrcs, hvalues, map_type_readSources, hagrees.memory]
  refine ⟨apply interp args first op, apply interp args second new, ?_, ?_, ?_⟩
  · simp [Machine.execute, hphi, hterm]
  · simp [Machine.execute, hphi', hinsn, hterm]
  · rw [apply_eq_write, apply_eq_write, heffect]
    cases hop with
    | keep hreg =>
      refine (hagrees.write hscope hzeros hreg hlocal _ _).mono fun reg h => ?_
      exact h.resolve_right (by simp [Defines, hreg])
    | define hreg hfloor hfresh hfresh' hnext =>
      rw [hreg]
      refine (hagrees.define hfloor hfresh hfresh' hnext _ _ _).mono fun other h => ?_
      exact h.imp_right fun hdefs => by
        simpa [Defines, hreg, Operand.register?, eq_comm] using hdefs

/-! ## Operations in a row -/

/-- An operation over the locals of the graph and known registers. -/
structure Plain (known : GuestRegister → Prop) (floor : Nat) (op : Operation) : Prop where
  phi : op.isPhi = false
  locals : ∀ opnd ∈ op.operands, ∀ id, opnd.localId? = some id → id < floor
  registers : ∀ src ∈ op.sources, ∀ reg, src.register? = some reg → known reg

theorem Substitutes.resolved (hop : Substitutes zeros floor scope op new next)
    (hphi : op.isPhi = false) : ∀ src ∈ op.sources, Resolved zeros scope src := by
  cases hop with
  | keep _ hsrcs => exact hsrcs hphi
  | define _ _ _ _ _ hsrcs => exact hsrcs hphi

variable (interp) in
theorem Agrees.values (hagrees : Agrees inScope outside zeros floor scope first second)
    (hop : Substitutes zeros floor scope op new next)
    (hplain : Plain known floor op)
    (hknown : ∀ reg, known reg → inScope reg ∧ outside reg) :
    (readSources zeros scope op).map (second.read interp) = op.sources.map (first.read interp) := by
  rw [readSources, hplain.phi]
  simp only [Bool.false_eq_true, if_false, map_map]
  refine map_congr_left fun src hsrc => ?_
  exact hagrees.read (hop.resolved hplain.phi src hsrc)
    (hplain.locals src (mem_append_right _ hsrc))
    fun reg hreg => hknown reg (hplain.registers src hsrc reg hreg)

theorem Plain.destination (hplain : Plain known floor op) :
    ∀ id, op.destination.bind Operand.localId? = some id → id < floor := by
  intro id hid
  obtain ⟨opnd, hopnd, hlocal⟩ := Option.bind_eq_some_iff.mp hid
  exact hplain.locals opnd (mem_append_left _ (by simp [hopnd])) id hlocal

variable (interp args arrival arrival') in
theorem Agrees.executeAll {ops new : List Operation}
    (hagrees : Agrees inScope outside zeros floor scope first second)
    (hops : SubstitutesAll zeros floor scope ops new last) (hscope : AtLeast floor scope)
    (hzeros : AtLeast floor zeros)
    (hknown : ∀ reg, known reg → inScope reg ∧ outside reg)
    (hplain : ∀ op ∈ ops, Plain known floor op ∧ op.instruction.isTerminator = false) :
    ∃ first' events second' events',
      Machine.executeAll interp args arrival first ops = some (first', events) ∧
      Machine.executeAll interp args arrival' second new = some (second', events') ∧
      Agrees (fun reg => inScope reg ∨ ∃ op ∈ ops, Defines op reg) outside zeros
        floor last first' second' ∧ events'.map Event.observe = events.map Event.observe := by
  induction hops generalizing inScope first second with
  | nil =>
    exact ⟨first, [], second, [], rfl, rfl, hagrees.mono fun reg h => by simpa using h, rfl⟩
  | @cons scope next last op new rest others hop _ ih =>
    obtain ⟨hplain', hterm⟩ := hplain op mem_cons_self
    have hvalues := hagrees.values interp hop hplain' hknown
    obtain ⟨first', second', hfirst, hsecond, hagrees'⟩ := hagrees.execute interp args arrival
      arrival' hop hscope hzeros hplain'.phi hterm hplain'.destination hvalues
    obtain ⟨last, events, last', events', hlast, hlast', hagrees'', hevents⟩ :=
      ih hagrees' (hop.atLeast hscope) (fun reg h => (hknown reg h).imp_left .inl)
        fun op hop => hplain op (.tail _ hop)
    refine ⟨last, record interp first op ++ events, last', record interp second new ++ events',
      ?_, ?_, hagrees''.mono fun reg h => ?_, ?_⟩
    · simp only [Machine.executeAll, hfirst, hlast]
    · simp only [Machine.executeAll, hsecond, hlast']
    · simpa [or_assoc] using h
    · rw [map_append, map_append, hevents, hop.observe_record hplain'.phi hagrees.memory hvalues]

/-! ## Leaving a block -/

/-- Operations end with at most one terminator, behind operations that are none. -/
theorem exists_body
    (hends : ∀ ⦃before after op⦄, ops = before ++ op :: after → op.instruction.isTerminator →
      after = []) :
    ∃ body tail, ops = body ++ tail ∧ (∀ op ∈ body, op.instruction.isTerminator = false) ∧
      (tail = [] ∨ ∃ op, tail = [op] ∧ op.instruction.isTerminator) := by
  cases hlast : ops.getLast? with
  | none =>
    refine ⟨[], [], ?_, by simp, .inl rfl⟩
    simpa using hlast
  | some op =>
    obtain ⟨body, rfl⟩ := getLast?_eq_some_iff.mp hlast
    have hterm : ∀ other ∈ body, other.instruction.isTerminator = false := by
      intro other hother
      obtain ⟨before, after, rfl⟩ := append_of_mem hother
      by_contra h
      have hnil := hends (append_assoc before _ [op]) (by simpa using h)
      simp at hnil
    cases hop : op.instruction.isTerminator with
    | true => exact ⟨body, [op], rfl, hterm, .inr ⟨op, rfl, hop⟩⟩
    | false =>
      refine ⟨body ++ [op], [], by simp, fun other hother => ?_, .inl rfl⟩
      rcases mem_append.mp hother with hother | hother
      · exact hterm other hother
      · rwa [mem_singleton.mp hother]

theorem terminator?_of_none (hnone : ∀ op ∈ block.operations, op.instruction.isTerminator = false) :
    block.terminator? = none := by
  rw [Block.terminator?, Option.filter_eq_none_iff]
  intro op hop
  simp [hnone op (mem_of_getLast? hop)]

theorem terminator?_of_append (hops : block.operations = front ++ [op])
    (hterm : op.instruction.isTerminator) : block.terminator? = some op := by
  simp [Block.terminator?, hops, hterm]

/-- How a block is left depends on what its terminator reads. -/
theorem leave_eq (hblock : block.terminator? = some op) (hblock' : block'.terminator? = some new)
    (hinsn : new.instruction = op.instruction)
    (htypes : new.sources.map Operand.type = op.sources.map Operand.type)
    (hvalues : new.sources.map (second.read interp) = op.sources.map (first.read interp))
    (hmemory : second.memory = first.memory) :
    leave interp second block' = leave interp first block := by
  simp only [leave, hblock, hblock', hinsn, htypes, hvalues, hmemory]

namespace SubstitutesAll

variable {new rest : List Operation}

theorem append (hops : SubstitutesAll zeros floor scope (ops ++ rest) new last) :
    ∃ next front others, new = front ++ others ∧ SubstitutesAll zeros floor scope ops front next ∧
      SubstitutesAll zeros floor next rest others last := by
  induction ops generalizing scope new with
  | nil => exact ⟨scope, [], new, rfl, .nil, hops⟩
  | cons op ops ih =>
    cases hops with
    | cons hop hrest =>
      obtain ⟨next, front, others, rfl, hfront, hothers⟩ := ih hrest
      exact ⟨next, _ :: front, others, rfl, .cons hop hfront, hothers⟩

section

variable (hops : SubstitutesAll zeros floor scope ops new last)
include hops

theorem atLeast (hscope : AtLeast floor scope) : AtLeast floor last := by
  induction hops with
  | nil => exact hscope
  | cons hop _ ih => exact ih (hop.atLeast hscope)

theorem map_instruction : new.map (·.instruction) = ops.map (·.instruction) := by
  induction hops with
  | nil => rfl
  | cons hop _ ih => simp only [map_cons, ih, hop.same.1]

theorem exists_instruction {other : Operation} (hother : other ∈ new)
    : ∃ op ∈ ops, other.instruction = op.instruction := by
  have hmem : other.instruction ∈ ops.map (·.instruction) :=
    hops.map_instruction ▸ mem_map_of_mem hother
  obtain ⟨op, hop, hsame⟩ := mem_map.mp hmem
  exact ⟨op, hop, hsame.symm⟩

theorem isTerminator (hterm : ∀ op ∈ ops, op.instruction.isTerminator = false) :
    ∀ op ∈ new, op.instruction.isTerminator = false := by
  intro op hop
  obtain ⟨old, hold, hsame⟩ := hops.exists_instruction hop
  rw [hsame]
  exact hterm old hold

end

end SubstitutesAll

/-- A terminator that goes on defines nothing, so it keeps the scope. -/
theorem Substitutes.eq_of_goes_on (hcheck : Validate.Checked block) (hmem : op ∈ block.operations)
    (hterm : op.instruction.isTerminator) (hret : op.instruction ≠ .ret)
    (hop : Substitutes zeros floor scope op new next) : next = scope := by
  cases hop with
  | keep => rfl
  | define hdest =>
    have hshape : ∃ count, op.instruction.shape? = some (false, count) := by
      cases hinsn : op.instruction <;> simp_all [Instruction.isTerminator, Instruction.shape?]
    obtain ⟨count, hcount⟩ := hshape
    have hnone := (hcheck.shape op hmem hcount).1
    simp [hdest] at hnone

variable (interp args arrival arrival') in
/-- The operations of a block behind what only one of the two runs does first. -/
theorem Agrees.finish {front' new : List Operation} (hcheck : Validate.Checked block)
    (hblock : block.operations = front ++ ops) (hblock' : block'.operations = front' ++ new)
    (hfront : ∀ op ∈ front, op.instruction.isTerminator = false)
    (hfront' : ∀ op ∈ front', op.instruction.isTerminator = false)
    (hagrees : Agrees (fun _ => True) known zeros floor scope first second)
    (hops : SubstitutesAll zeros floor scope ops new last) (hscope : AtLeast floor scope)
    (hzeros : AtLeast floor zeros) (hplain : ∀ op ∈ ops, Plain known floor op) :
    ∃ first' events second' events',
      Machine.executeAll interp args arrival first ops = some (first', events) ∧
      Machine.executeAll interp args arrival' second new = some (second', events') ∧
      events'.map Event.observe = events.map Event.observe ∧
      leave interp second' block' = leave interp first' block ∧ second'.memory = first'.memory ∧
      ((∃ slot, leave interp first' block = .ok slot) →
        Agrees (fun _ => True) known zeros floor last first' second') := by
  have hends : ∀ ⦃before after op⦄, ops = before ++ op :: after → op.instruction.isTerminator →
      after = [] := by
    intro before after op heq hterm
    exact hcheck.terminator_last (by rw [hblock, heq, append_assoc]) hterm
  obtain ⟨body, tail, rfl, hbody, htail⟩ := exists_body hends
  obtain ⟨next, bodyNew, tailNew, rfl, hfirst', hrest⟩ := hops.append
  have hknown : ∀ reg, known reg → True ∧ known reg := fun _ h => ⟨trivial, h⟩
  obtain ⟨first', events, second', events', hfirst, hsecond, hagrees', hevents⟩ :=
    hagrees.executeAll interp args arrival arrival' hfirst' hscope hzeros hknown
      fun op hop => ⟨hplain op (mem_append_left _ hop), hbody op hop⟩
  replace hagrees' : Agrees (fun _ => True) known zeros floor next first' second' :=
    hagrees'.mono fun _ _ => .inl trivial
  have hbodyNew := hfirst'.isTerminator hbody
  rcases htail with rfl | ⟨op, rfl, hterm⟩
  · cases hrest with
    | nil =>
      refine ⟨first', events, second', events', by simpa using hfirst, by simpa using hsecond,
        hevents, ?_, hagrees'.memory, fun _ => hagrees'⟩
      have hnone : block.terminator? = none := terminator?_of_none fun op hop => by
        rw [hblock, append_nil] at hop
        rcases mem_append.mp hop with hop | hop
        · exact hfront op hop
        · exact hbody op hop
      have hnone' : block'.terminator? = none := terminator?_of_none fun op hop => by
        rw [hblock', append_nil] at hop
        rcases mem_append.mp hop with hop | hop
        · exact hfront' op hop
        · exact hbodyNew op hop
      simp only [leave, hnone, hnone']
  · cases hrest with
    | @cons _ _ _ _ new _ _ hop hnil =>
      cases hnil with
      | nil =>
        have hplain' := hplain op (by simp)
        have hvalues := hagrees'.values interp hop hplain' hknown
        obtain ⟨hinsn, -, hsrcs⟩ := hop.same
        have hphi' : new.isPhi = false := by rw [Operation.isPhi, hinsn]; exact hplain'.phi
        have hterm' : new.instruction.isTerminator := hinsn ▸ hterm
        have hlast : block.terminator? = some op :=
          terminator?_of_append (by rw [hblock, append_assoc]) hterm
        have hlast' : block'.terminator? = some new :=
          terminator?_of_append (by rw [hblock', append_assoc]) hterm'
        refine ⟨first', events ++ record interp first' op, second',
          events' ++ record interp second' new, ?_, ?_, ?_, ?_, hagrees'.memory, ?_⟩
        · simp [executeAll_append, hfirst, Machine.executeAll, Machine.execute, hplain'.phi, hterm]
        · simp [executeAll_append, hsecond, Machine.executeAll, Machine.execute, hphi', hterm']
        · rw [map_append, map_append, hevents,
            hop.observe_record hplain'.phi hagrees'.memory hvalues]
        · refine leave_eq hlast hlast' hinsn ?_ ?_ hagrees'.memory
          · rw [hsrcs, map_type_readSources]
          · rw [hsrcs, hvalues]
        · rintro ⟨slot, hslot⟩
          have hret : op.instruction ≠ .ret := by
            intro hret
            simp [leave, hlast, hret] at hslot
          rw [hop.eq_of_goes_on hcheck (by rw [hblock]; simp) hterm hret]
          exact hagrees'

/-! ## Phis -/

theorem lookup_map_self {preds : List Nat} {p : Nat} (hp : p ∈ preds) (value : Nat → Operand) :
    (preds.map fun q => (q, value q)).lookup p = some (value p) := by
  induction preds with
  | nil => simp at hp
  | cons q rest ih =>
    by_cases hq : p = q
    · simp [hq]
    · simpa [List.lookup_cons, beq_false_of_ne hq] using ih ((mem_cons.mp hp).resolve_left hq)

/-- A phi whose inputs are what stands for a register at the end of each predecessor. -/
def fedPhi (zeros : Scope) (out : Nat → Scope) (preds : List Nat) (var : GuestVariable) :
    Operation :=
  mapInputs (fun label => resolve zeros (out label)) (emptyPhi var preds)

theorem isPhi_fedPhi (zeros : Scope) (out : Nat → Scope) (preds : List Nat) (var : GuestVariable) :
    (fedPhi zeros out preds var).isPhi :=
  (isPhi_mapInputs _ _).trans rfl

theorem inputs_fedPhi (zeros : Scope) (out : Nat → Scope) (preds : List Nat) (var : GuestVariable) :
    (fedPhi zeros out preds var).inputs =
      preds.map fun q => (q, resolve zeros (out q) (.register var.register var.type)) := by
  rw [fedPhi, inputs_mapInputs rfl, inputs_emptyPhi, map_map]
  rfl

theorem destination_fedPhi (zeros : Scope) (out : Nat → Scope) (preds : List Nat)
    (var : GuestVariable) :
    (fedPhi zeros out preds var).destination = some (.register var.register var.type) :=
  (destination_mapInputs _ _).trans rfl

theorem write_registers_self (state : State Value Memory) (reg : GuestRegister) (type : ValueType) :
    { state with memory := state.memory }.write (some (.register reg type))
      (state.registers reg) = state := by
  simp only [State.write]
  congr
  funext other
  split
  next h => rw [h]
  next => rfl

section

variable {out : Nat → Scope} {known : GuestRegister → Prop} {p : Nat} {preds : List Nat}
  {past past' : State Value Memory}

variable {var : GuestVariable}

/-- The value of a phi is what the register held at the end of the predecessor. -/
theorem phiValue_fedPhi (hp : p ∈ preds)
    (hpast : Agrees (fun _ => True) known zeros floor (out p) past past')
    (hknown : known var.register) (hfed : Resolved zeros (out p) (.register var.register var.type))
    (hinputs : op.inputs = (fedPhi zeros out preds var).inputs) :
    phiValue interp (some (p, past')) op = some (past.registers var.register) := by
  have hread : past'.read interp (resolve zeros (out p) (.register var.register var.type)) =
      past.registers var.register := by
    refine hpast.read hfed (fun id hid => by cases hid) fun reg hreg => ?_
    cases hreg
    exact ⟨trivial, hknown⟩
  simp only [phiValue, hinputs, inputs_fedPhi, lookup_map_self hp, Option.bind_eq_bind,
    Option.bind_some, hread]
  rfl

variable (interp args) in
theorem Agrees.executePhi (hp : p ∈ preds)
    (hpast : Agrees (fun _ => True) known zeros floor (out p) past past')
    (hop : Substitutes zeros floor scope (fedPhi zeros out preds var) new next)
    (hknown : known var.register) (hfed : Resolved zeros (out p) (.register var.register var.type))
    (hagrees : Agrees inScope outside zeros floor scope past second) :
    ∃ second', Machine.execute interp args (some (p, past')) second new = some second' ∧
      record interp second new = [] ∧ next.lookup var.register ≠ none ∧
      Agrees (fun other => inScope other ∨ other = var.register) outside zeros floor next past
        second' := by
  have hphi := isPhi_fedPhi zeros out preds var
  cases hop with
  | keep hnone => simp [destination_fedPhi, Operand.register?] at hnone
  | @define reg type id next hdest hfloor hscope hzeros hnext hsrcs =>
    obtain ⟨rfl, rfl⟩ : var.register = reg ∧ var.type = type := by
      simpa [destination_fedPhi] using hdest
    let renamed : Operation := { fedPhi zeros out preds var with
      sources := readSources zeros scope (fedPhi zeros out preds var)
      destination := some (.localVar id var.type) }
    have hphi' : renamed.isPhi := hphi
    have hinputs : renamed.inputs = (fedPhi zeros out preds var).inputs := by
      simp [renamed, Operation.inputs, readSources, hphi]
    have hvalue : phiValue interp (some (p, past')) renamed = some (past.registers var.register) :=
      phiValue_fedPhi hp hpast hknown hfed hinputs
    have hdefine := hagrees.define hfloor hscope hzeros hnext var.type
      (past.registers var.register) past.memory
    have hsame : { second with memory := past.memory } = second := by rw [← hagrees.memory]
    rw [write_registers_self, hsame] at hdefine
    refine ⟨_, ?_, if_pos hphi', by simp [hnext], hdefine⟩
    change Machine.execute interp args _ second renamed = _
    rw [Machine.execute, if_pos hphi', hvalue, Option.map_some]

variable (interp args) in
theorem Agrees.executePhis {pending : List GuestVariable} {new : List Operation}
    (hp : p ∈ preds) (hpast : Agrees (fun _ => True) known zeros floor (out p) past past')
    (hphis : SubstitutesAll zeros floor scope (pending.map (fedPhi zeros out preds)) new last)
    (hknown : ∀ var ∈ pending, known var.register)
    (hfed : ∀ var ∈ pending, Resolved zeros (out p) (.register var.register var.type))
    (hagrees : Agrees (· ∉ pending.map (·.register))
      (fun reg => known reg ∧ reg ∉ pending.map (·.register)) zeros floor scope past
      second) : ∃ second', Machine.executeAll interp args (some (p, past')) second new =
        some (second', []) ∧ Agrees (fun _ => True) known zeros floor last past second' := by
  induction pending generalizing scope second new with
  | nil =>
    cases hphis
    exact ⟨second, rfl, hagrees.memory, hagrees.locals, fun _ _ _ => hagrees.bound (by simp),
      fun _ _ h => hagrees.cleared ⟨h, by simp⟩⟩
  | cons var rest ih =>
    cases hphis with
    | @cons _ next _ _ _ _ _ hop hrest =>
      obtain ⟨middle, hmiddle, hrecord, hsome, hagrees'⟩ := Agrees.executePhi interp args hp
        hpast hop (hknown var mem_cons_self) (hfed var mem_cons_self) hagrees
      have hstep : Agrees (· ∉ rest.map (·.register))
          (fun reg => known reg ∧ reg ∉ rest.map (·.register)) zeros floor next past
          middle := by
        refine ⟨hagrees'.memory, hagrees'.locals, fun reg id hin => ?_, fun reg id hout hnone => ?_⟩
        · refine hagrees'.bound ?_
          by_cases hvar : reg = var.register
          · exact .inr hvar
          · exact .inl (by simpa [hvar] using hin)
        · have hvar : reg ≠ var.register := fun h => hsome (h ▸ hnone)
          exact hagrees'.cleared ⟨hout.1, by simpa [hvar] using hout.2⟩ hnone
      obtain ⟨second', hsecond, hlast⟩ := ih hrest (fun v hv => hknown v (.tail _ hv))
        (fun v hv => hfed v (.tail _ hv)) hstep
      refine ⟨second', ?_, hlast⟩
      simp only [Machine.executeAll, hmiddle, hsecond, hrecord, nil_append]

end

/-! ## The start of the entry block -/

theorem mem_zeroInits_iff {vars : List GuestVariable} :
    op ∈ zeroInits vars zeros ↔ ∃ var ∈ vars, ∃ id, zeros.lookup var.register = some id ∧
      op = .copy (.localVar id var.type) (.zero var.type) := by
  simp only [zeroInits, mem_map, mem_filterMap, Option.map_eq_some_iff]
  constructor
  · rintro ⟨-, ⟨var, hvar, id, hid, rfl⟩, rfl⟩
    exact ⟨var, hvar, id, hid, rfl⟩
  · rintro ⟨var, hvar, id, hid, rfl⟩
    exact ⟨(id, var.type), ⟨var, hvar, id, hid, rfl⟩, rfl⟩

/-- The copies that clear some locals. -/
def clearing (cleared : List (Nat × ValueType)) : List Operation :=
  cleared.map fun (id, type) => .copy (.localVar id type) (.zero type)

variable (args arrival) in
/-- The copies clear their locals and leave everything else alone. -/
theorem exists_executeAll_clearing (hzero : ∀ type, interp.constant 0 type = interp.zero)
    (cleared : List (Nat × ValueType)) (state : State Value Memory) : ∃ state' events,
      Machine.executeAll interp args arrival state (clearing cleared) = some (state', events) ∧
      state'.memory = state.memory ∧
      ∀ id, state'.locals id = if id ∈ cleared.map Prod.fst then interp.zero else state.locals id := by
  induction cleared generalizing state with
  | nil => exact ⟨state, [], rfl, rfl, fun id => by simp⟩
  | cons entry rest ih =>
    obtain ⟨id, type⟩ := entry
    let middle := state.write (some (.localVar id type)) interp.zero
    obtain ⟨state', events, hrest, hmemory, hlocals⟩ := ih middle
    let op : Operation := .copy (.localVar id type) (.zero type)
    have hstep : Machine.execute interp args arrival state op = some middle := by
      have hclear : interp.constant 0#64 type = interp.zero := hzero type
      simp [Machine.execute, op, middle, apply, Operation.copy, Operation.isPhi, State.read,
        Operand.zero, Instruction.isTerminator, hclear]
    refine ⟨state', record interp state op ++ events, ?_, hmemory.trans rfl, fun other => ?_⟩
    · change Machine.executeAll interp args arrival state (op :: clearing rest) = _
      simp only [Machine.executeAll, hstep, hrest]
    · rw [hlocals other]
      by_cases hrest' : other ∈ rest.map Prod.fst
      · simp [hrest']
      · by_cases hid : other = id
        · simp [hid, middle, State.write]
        · simp [hrest', hid, middle, State.write]

theorem registers_executeAll {last : State Value Memory}
    {events : List (Machine.Event Value Memory)}
    (hexec : Machine.executeAll interp args arrival first ops = some (last, events))
    (hnot : ∀ op ∈ ops, ¬Defines op reg) :
    last.registers reg = first.registers reg := by
  have hwrite : ∀ {op : Operation} {state : State Value Memory} {value : Value}, ¬Defines op reg →
      (state.write op.destination value).registers reg = state.registers reg := by
    intro op state value hop
    unfold State.write
    split
    next guest type hdest =>
      refine if_neg fun h => hop ?_
      simp [Defines, hdest, Operand.register?, h]
    next => rfl
    next => rfl
  induction ops generalizing first events with
  | nil =>
    cases hexec
    rfl
  | cons op rest ih =>
    obtain ⟨middle, events', hmiddle, hrest, rfl⟩ := Machine.of_executeAll_cons hexec
    rw [ih hrest fun op hop => hnot op (.tail _ hop)]
    have hop := hnot op mem_cons_self
    unfold Machine.execute at hmiddle
    split at hmiddle
    next =>
      obtain ⟨value, -, rfl⟩ := Option.map_eq_some_iff.mp hmiddle
      exact hwrite hop
    next =>
      split at hmiddle <;> cases hmiddle
      · rfl
      · rw [apply_eq_write]
        exact hwrite hop

/-- Locals in scope are not cleared ones. -/
def Avoiding (zeros scope : Scope) : Prop :=
  ∀ ⦃reg id⦄, scope.lookup reg = some id → ∀ other, zeros.lookup other ≠ some id

namespace SubstitutesAll

variable {new : List Operation} (hops : SubstitutesAll zeros floor scope ops new last)
include hops

/-- A register that is not in scope in the end was never written. -/
theorem not_defines (hnone : last.lookup reg = none) :
    scope.lookup reg = none ∧ ∀ op ∈ ops, ¬Defines op reg := by
  induction hops with
  | nil => exact ⟨hnone, by simp⟩
  | cons hop _ ih =>
    obtain ⟨hnext, hrest⟩ := ih hnone
    cases hop with
    | keep hdest =>
      refine ⟨hnext, forall_mem_cons.mpr ⟨fun h => ?_, hrest⟩⟩
      simp [Defines, hdest] at h
    | define hdest _ _ _ hlookup =>
      rw [hlookup] at hnext
      split at hnext
      next => simp at hnext
      next hne =>
        refine ⟨hnext, forall_mem_cons.mpr ⟨fun h => hne ?_, hrest⟩⟩
        simpa [Defines, hdest, Operand.register?, eq_comm] using h

theorem avoiding (hscope : Avoiding zeros scope) : Avoiding zeros last := by
  induction hops with
  | nil => exact hscope
  | cons hop _ ih =>
    refine ih ?_
    cases hop with
    | keep => exact hscope
    | define _ _ _ hzeros hnext =>
      intro reg id hid
      rw [hnext] at hid
      split at hid
      next =>
        cases hid
        exact hzeros
      next => exact hscope hid

end SubstitutesAll

end GraphJit.SSA
