import GraphJit.Proofs.EdgeSplit
import Mathlib.Data.List.Forall2
import Mathlib.Data.List.Induction

/-! # Turning a phi into copies

Every predecessor copies its input into a temporary that occurs nowhere else,
and the phi becomes a copy from it. The temporary is set by whichever block was
left last, so it holds the value of the input for the edge just taken.
-/

namespace GraphJit.SSA

open Machine List Block

/-! ## Copies at the end of a block -/

/-- Put operations before the terminator of a block, or at its end if there is none. -/
def withCopies (copies : List Operation) (block : Block) : Block :=
  { block with
    operations := block.operations.take block.insertionPoint ++ copies
      ++ block.operations.drop block.insertionPoint }

/-- A block has a last operation that ends it, or operations can be put at its end. -/
theorem insertionPoint_cases (block : Block) :
    (∃ body op, block.operations = body ++ [op] ∧ op.instruction.isTerminator ∧
        block.terminator? = some op ∧ block.insertionPoint = body.length) ∨
      block.terminator? = none ∧ block.insertionPoint = block.operations.length := by
  cases hterm : block.terminator? with
  | none => exact .inr ⟨rfl, by simp [insertionPoint, hterm]⟩
  | some op =>
    left
    unfold terminator? at hterm
    obtain ⟨hlast, hop⟩ := Option.filter_eq_some_iff.mp hterm
    obtain ⟨body, hbody⟩ := getLast?_eq_some_iff.mp hlast
    refine ⟨body, op, hbody, hop, rfl, ?_⟩
    have hterm' : block.terminator? = some op := hterm
    simp [insertionPoint, hterm', hbody]

variable {α : Type} {block : Block} {op : Operation} {b pos : Nat} {graph : Graph}
  {body : List Operation} {inputs : List (Nat × Operand)}

theorem terminator?_append (hops : block.operations = body ++ [op]) :
    block.terminator? = if op.instruction.isTerminator then some op else none := by
  simp [terminator?, hops, Option.filter]

variable {copies : List Operation}

theorem withCopies_of_terminator (hops : block.operations = body ++ [op])
    (hop : op.instruction.isTerminator) :
    (withCopies copies block).operations = body ++ copies ++ [op] := by
  have hpoint : block.insertionPoint = body.length := by
    rw [insertionPoint, terminator?_append hops, if_pos hop, hops]
    simp
  simp [withCopies, hpoint, hops]

theorem withCopies_of_none (hterm : block.terminator? = none) :
    (withCopies copies block).operations = block.operations ++ copies := by
  simp [withCopies, insertionPoint, hterm]

theorem withCopies_terminator? (hcopies : ∀ op ∈ copies, op.instruction.isTerminator = false)
    (block : Block) : (withCopies copies block).terminator? = block.terminator? := by
  rcases insertionPoint_cases block with ⟨body, op, hops, hop, hterm, -⟩ | ⟨hterm, -⟩
  · rw [terminator?_append (withCopies_of_terminator hops hop), if_pos hop, hterm]
  · have hops' : (withCopies copies block).operations = block.operations ++ copies :=
      withCopies_of_none hterm
    rw [hterm]
    rcases eq_nil_or_concat' copies with rfl | ⟨front, op, rfl⟩
    · simpa [terminator?, hops'] using hterm
    · rw [← append_assoc] at hops'
      rw [terminator?_append hops', if_neg (by simp [hcopies op (by simp)])]

theorem withCopies_insertionPoint (hcopies : ∀ op ∈ copies, op.instruction.isTerminator = false)
    (block : Block) :
    (withCopies copies block).insertionPoint = block.insertionPoint + copies.length := by
  have hterm := withCopies_terminator? hcopies block
  rcases insertionPoint_cases block with ⟨body, op, hops, hop, hold, hpoint⟩ | ⟨hold, hpoint⟩
  · rw [insertionPoint, hterm, hold, withCopies_of_terminator hops hop, hpoint]
    simp
  · rw [insertionPoint, hterm, hold, withCopies_of_none hold, hpoint]
    simp

theorem withCopies_nil (block : Block) : withCopies [] block = block := by
  simp [withCopies]

theorem insertIdx_length_append (first second : List α) (x : α) :
    (first ++ second).insertIdx first.length x = first ++ x :: second := by
  induction first with
  | nil => rfl
  | cons head tail ih => simpa using ih

/-- One more copy comes after those that are already there. -/
theorem withCopies_insert (hcopies : ∀ op ∈ copies, op.instruction.isTerminator = false)
    (block : Block) (op : Operation) : { withCopies copies block with
      operations := (withCopies copies block).operations.insertIdx
        (withCopies copies block).insertionPoint op } = withCopies (copies ++ [op]) block := by
  have hle : block.insertionPoint ≤ block.operations.length := by
    unfold insertionPoint
    split <;> omega
  have hlength : block.insertionPoint + copies.length =
      (block.operations.take block.insertionPoint ++ copies).length := by
    rw [length_append, length_take, Nat.min_eq_left hle]
  rw [withCopies_insertionPoint hcopies]
  simp only [withCopies, hlength]
  rw [insertIdx_length_append]
  simp

/-- The copies that block `b` makes for the inputs of a phi. -/
def copiesFor (temporary : Operand) (inputs : List (Nat × Operand)) (b : Nat) : List Operation :=
  (inputs.filter (·.1 == b)).map fun input => .copy temporary input.2

theorem copiesFor_not_terminator {temporary : Operand} :
    ∀ op ∈ copiesFor temporary inputs b, op.instruction.isTerminator = false := by
  intro op hop
  obtain ⟨input, -, rfl⟩ := mem_map.mp hop
  rfl

/-- All copies are put in place if there is a block for every label. -/
theorem foldlM_copyAtEnd (temporary : Operand) (hlabels : ∀ input ∈ inputs, input.1 < graph.size) :
    ∃ result, inputs.foldlM (copyAtEnd temporary) graph = .ok result ∧
      result.locals = graph.locals ∧ result.size = graph.size ∧
      ∀ {b : Nat} {block : Block}, graph.blocks[b]? = some block →
        result.blocks[b]? = some (withCopies (copiesFor temporary inputs b) block) := by
  induction inputs using List.reverseRecOn with
  | nil => exact ⟨graph, rfl, rfl, rfl, fun hblock => by simp [copiesFor, withCopies_nil, hblock]⟩
  | append_singleton inputs input ih =>
    obtain ⟨middle, hmiddle, hlocals, hsize, hblocks⟩ :=
      ih fun other hother => hlabels other (by simp [hother])
    have hlabel : input.1 < middle.size := hsize ▸ hlabels input (by simp)
    have hfold : (inputs ++ [input]).foldlM (copyAtEnd temporary) graph =
        copyAtEnd temporary middle input := by
      simp only [foldlM_append, hmiddle, foldlM_cons, foldlM_nil, bind_pure]
      rfl
    rw [hfold, copyAtEnd, Graph.modify_eq_ok _ hlabel]
    refine ⟨_, rfl, hlocals, ?_, ?_⟩
    · simpa [Graph.size] using hsize
    · intro b block hblock
      have hb := hblocks hblock
      simp only [Array.getElem?_modify, hb, Option.map_some]
      by_cases heq : input.1 = b
      · have hcopies : copiesFor temporary (inputs ++ [input]) b =
            copiesFor temporary inputs b ++ [.copy temporary input.2] := by
          simp [copiesFor, filter_append, heq]
        rw [if_pos heq, hcopies]
        exact congrArg some (withCopies_insert copiesFor_not_terminator block _)
      · have hcopies : copiesFor temporary (inputs ++ [input]) b =
            copiesFor temporary inputs b := by
          simp [copiesFor, filter_append, heq]
        rw [if_neg heq, hcopies]

/-! ## States that differ in the temporary -/

section

variable {Value Memory : Type} {interp : Interpretation Value Memory} {args : List Value}
variable {temporary : Nat}

/-- Two states agree on everything but one local. -/
structure AgreeOff (temporary : Nat) (first second : State Value Memory) : Prop where
  registers : second.registers = first.registers
  locals : ∀ id, id ≠ temporary → second.locals id = first.locals id
  memory : second.memory = first.memory

/-- Control comes from the same block, in states that agree. -/
def ArrivalAgrees (temporary : Nat) (first second : Option (Nat × State Value Memory)) : Prop :=
  ∀ {label past}, first = some (label, past) →
    ∃ other, second = some (label, other) ∧ AgreeOff temporary past other

/-- The local is no operand of the operation. -/
def Avoids (temporary : Nat) (op : Operation) : Prop :=
  ∀ opnd ∈ op.operands, opnd.localId? ≠ some temporary

namespace AgreeOff

variable {first second : State Value Memory}

theorem refl (state : State Value Memory) : AgreeOff temporary state state :=
  ⟨rfl, fun _ _ => rfl, rfl⟩

variable (hagree : AgreeOff temporary first second)
include hagree

theorem read {opnd : Operand} (hopnd : opnd.localId? ≠ some temporary) :
    second.read interp opnd = first.read interp opnd := by
  cases opnd with
  | constant bits type => rfl
  | register guest type => simp only [State.read, hagree.registers]
  | localVar id type =>
    exact hagree.locals id fun h => hopnd (h ▸ rfl)

theorem write (dest : Option Operand) (value : Value) :
    AgreeOff temporary (first.write dest value) (second.write dest value) := by
  refine ⟨?_, ?_, by simp [hagree.memory]⟩
  · unfold State.write
    split <;> simp [hagree.registers]
  · intro id hid
    unfold State.write
    split <;> simp [hagree.locals id hid]

theorem write_temporary (type : ValueType) (value : Value) :
    AgreeOff temporary first (second.write (some (.localVar temporary type)) value) := by
  refine ⟨hagree.registers, ?_, hagree.memory⟩
  intro id hid
  simpa [State.write, hid] using hagree.locals id hid

theorem with_memory (memory : Memory) :
    AgreeOff temporary { first with memory } { second with memory } :=
  ⟨hagree.registers, hagree.locals, rfl⟩

end AgreeOff

variable {state first second : State Value Memory} {arrival : Option (Nat × State Value Memory)}

/-- A write to another variable leaves the temporary as it is. -/
theorem write_locals_other {dest : Option Operand} {value : Value}
    (hdest : ∀ opnd ∈ dest, opnd.localId? ≠ some temporary) :
    (state.write dest value).locals temporary = state.locals temporary := by
  unfold State.write
  split
  next => rfl
  next id type =>
    have hne : temporary ≠ id := fun h => hdest _ rfl (h ▸ rfl)
    simp [hne]
  next => rfl

namespace Avoids

variable {op : Operation}

theorem source (havoid : Avoids temporary op) {opnd : Operand} (hop : opnd ∈ op.sources) :
    opnd.localId? ≠ some temporary :=
  havoid opnd (mem_append_right _ hop)

theorem destination (havoid : Avoids temporary op) :
    ∀ opnd ∈ op.destination, opnd.localId? ≠ some temporary := by
  intro opnd hop
  exact havoid opnd (mem_append_left _ (by simpa using hop))

variable {first second : State Value Memory}

theorem read_sources (havoid : Avoids temporary op) (hagree : AgreeOff temporary first second) :
    op.sources.map (second.read interp) = op.sources.map (first.read interp) :=
  map_congr_left fun _ hop => hagree.read (havoid.source hop)

variable (havoid : Avoids temporary op)
include havoid

theorem record (hagree : AgreeOff temporary first second) :
    Machine.record interp second op = Machine.record interp first op := by
  simp only [Machine.record, havoid.read_sources hagree, hagree.memory]

theorem phiValue {first second : Option (Nat × State Value Memory)}
    (harr : ArrivalAgrees temporary first second) {value : Value}
    (hvalue : Machine.phiValue interp first op = some value) :
    Machine.phiValue interp second op = some value := by
  cases first with
  | none => simp [Machine.phiValue] at hvalue
  | some pair =>
    obtain ⟨label, past⟩ := pair
    obtain ⟨other, rfl, hagree⟩ := harr rfl
    simp only [Machine.phiValue, Option.bind_eq_bind, Option.bind_some, Option.pure_def,
      Option.bind_eq_some_iff] at hvalue ⊢
    obtain ⟨src, hsrc, hread⟩ := hvalue
    have hmem := (of_mem_zip (mem_of_lookup hsrc)).2
    exact ⟨src, hsrc, by rw [hagree.read (havoid.source hmem), hread]⟩

theorem apply (hagree : AgreeOff temporary first second) :
    AgreeOff temporary (Machine.apply interp args first op) (Machine.apply interp args second op) ∧
      (Machine.apply interp args second op).locals temporary = second.locals temporary := by
  unfold Machine.apply
  split
  next src _ hsrcs =>
    rw [hagree.read (havoid.source (hsrcs ▸ mem_singleton_self _))]
    exact ⟨hagree.write _ _, write_locals_other havoid.destination⟩
  next =>
    simp only [havoid.read_sources hagree, hagree.memory]
    exact ⟨(hagree.with_memory _).write _ _, write_locals_other havoid.destination⟩

theorem execute {after : State Value Memory} {arrival arrival' : Option (Nat × State Value Memory)}
    (hagree : AgreeOff temporary first second) (harr : ArrivalAgrees temporary arrival arrival')
    (hexec : Machine.execute interp args arrival first op = some after) :
    ∃ after', Machine.execute interp args arrival' second op = some after' ∧
      AgreeOff temporary after after' ∧ after'.locals temporary = second.locals temporary := by
  unfold Machine.execute at hexec ⊢
  split at hexec
  next hphi =>
    obtain ⟨value, hvalue, rfl⟩ := Option.map_eq_some_iff.mp hexec
    rw [if_pos hphi, havoid.phiValue harr hvalue]
    exact ⟨_, rfl, hagree.write _ _, write_locals_other havoid.destination⟩
  next hphi =>
    rw [if_neg hphi]
    split at hexec
    next hterm =>
      cases hexec
      exact ⟨second, if_pos hterm, hagree, rfl⟩
    next hterm =>
      cases hexec
      exact ⟨_, if_neg hterm, havoid.apply hagree⟩

end Avoids

/-! ## Running a block with its copies -/

/-- Copies from or into a local that the graph did not have at first. -/
def isInserted (count : Nat) (op : Operation) : Bool :=
  op.instruction == .copy && op.operands.any fun opnd => opnd.localId?.any (count ≤ ·)

/-- Either the same operation, or the phi and the copy that takes its place. -/
inductive Lowered (temporary : Nat) (phi : Operation) (dest : Operand) (here : Prop) :
    Operation → Operation → Prop where
  | same {op : Operation} (havoid : Avoids temporary op) :
      Lowered temporary phi dest here op op
  | copy (hhere : here) : Lowered temporary phi dest here phi
      (.copy dest (.localVar temporary dest.type))

variable {phi : Operation} {dest : Operand} {count : Nat}

/-- What survives of the events of a run. -/
def original (count : Nat) (events : List (Event Value Memory)) : List (Event Value Memory) :=
  events.filter fun event => !isInserted count event.operation

theorem execute_copy (dest src : Operand) : execute interp args arrival state (.copy dest src) =
      some (state.write (some dest) (state.read interp src)) := by
  simp [execute, Operation.copy, Operation.isPhi, Instruction.isTerminator, apply]

@[simp] theorem original_append (first second : List (Event Value Memory)) :
    original count (first ++ second) = original count first ++ original count second :=
  filter_append ..

theorem original_record_copy {src : Operand} (hcopy : isInserted count (.copy dest src)) :
    original count (record interp state (.copy dest src)) = [] := by
  have hrecord : record interp state (.copy dest src) =
      [⟨.copy dest src, [state.read interp src], state.memory⟩] := rfl
  simp [original, hrecord, hcopy]

/-- The operations before the copies. The temporary holds the value of the phi all along. -/
theorem executeAll_lowered {here : Prop} {arrival' : Option (Nat × State Value Memory)}
    {ops ops' : List Operation} (hops : Forall₂ (Lowered temporary phi dest here) ops ops')
    (hphi : phi.isPhi) (havoid : Avoids temporary phi) (hdest : phi.destination = some dest)
    (hcount : count ≤ temporary) (harr : ArrivalAgrees temporary arrival arrival')
    {after : State Value Memory} {events : List (Event Value Memory)}
    (hagree : AgreeOff temporary first second)
    (hvalue : here → ∀ value, phiValue interp arrival phi = some value →
      second.locals temporary = value)
    (hexec : executeAll interp args arrival first ops = some (after, events)) :
    ∃ after' events', executeAll interp args arrival' second ops' = some (after', events') ∧
      AgreeOff temporary after after' ∧ original count events' = original count events := by
  induction hops generalizing first second events with
  | nil =>
    cases hexec
    exact ⟨second, [], rfl, hagree, rfl⟩
  | @cons op op' rest rest' hop hrest ih =>
    obtain ⟨middle, more, hmiddle, hlast, rfl⟩ := of_executeAll_cons hexec
    cases hop with
    | same hsame =>
      obtain ⟨middle', hmiddle', hagree', hkept⟩ := hsame.execute hagree harr hmiddle
      obtain ⟨after', events', hafter, hagree'', hevents⟩ := ih hagree'
        (fun hhere value hv => hkept ▸ hvalue hhere value hv) hlast
      refine ⟨after', record interp second op ++ events', ?_, hagree'', ?_⟩
      · simp only [executeAll, hmiddle', hafter]
      · rw [original_append, original_append, hsame.record hagree, hevents]
    | copy hhere =>
      simp only [execute, hphi, if_true, Option.map_eq_some_iff] at hmiddle
      obtain ⟨value, hv, rfl⟩ := hmiddle
      have htemp : second.locals temporary = value := hvalue hhere value hv
      have hwrite : (second.write phi.destination value).locals temporary =
          second.locals temporary := write_locals_other havoid.destination
      obtain ⟨after', events', hafter, hagree', hevents⟩ := ih (hagree.write _ value)
        (fun _ other hother => by rw [hwrite, htemp]; simpa [hv] using hother) hlast
      refine ⟨after', record interp second
        (.copy dest (.localVar temporary dest.type)) ++ events', ?_,
        hagree', ?_⟩
      · simp only [executeAll, execute_copy, State.read, htemp]
        rw [← hdest, hafter]
      · have hcopy : isInserted count (.copy dest (.localVar temporary dest.type)) := by
          simp [isInserted, Operation.copy, Operation.operands, Operand.localId?, hcount]
        rw [original_append, original_record_copy hcopy, hevents]
        simp [record, hphi]

variable (interp args) in
/-- The copies that a block makes. Afterwards the temporary holds one of their sources. -/
theorem executeAll_copies (arrival : Option (Nat × State Value Memory)) (type : ValueType)
    {sources : List Operand} (hsrcs : ∀ src ∈ sources, src.localId? ≠ some temporary)
    (hcount : count ≤ temporary) (hagree : AgreeOff temporary first second) :
    ∃ after events, executeAll interp args arrival second
        (sources.map fun src => .copy (.localVar temporary type) src) = some (after, events) ∧
      AgreeOff temporary first after ∧ original count events = [] ∧
      (sources ≠ [] → ∃ src ∈ sources, after.locals temporary = first.read interp src) := by
  induction sources generalizing second with
  | nil => exact ⟨second, [], rfl, hagree, rfl, fun h => absurd rfl h⟩
  | cons src rest ih =>
    have hread : second.read interp src = first.read interp src :=
      hagree.read (hsrcs src mem_cons_self)
    obtain ⟨after, events, hafter, hagree', hevents, hheld⟩ :=
      ih (fun other hother => hsrcs other (.tail _ hother))
        (hagree.write_temporary type (first.read interp src))
    have hcopy : isInserted count (.copy (.localVar temporary type) src) := by
      simp [isInserted, Operation.copy, Operation.operands, Operand.localId?, hcount]
    refine ⟨after, record interp second (.copy (.localVar temporary type) src) ++ events,
      ?_, hagree', ?_, ?_⟩
    · simp only [map_cons, executeAll, execute_copy, hread, hafter]
    · rw [original_append, original_record_copy hcopy, hevents, nil_append]
    · intro _
      by_cases hrest : rest = []
      · subst hrest
        cases hafter
        exact ⟨src, mem_cons_self, by simp [State.write]⟩
      · obtain ⟨other, hother, hvalue⟩ := hheld hrest
        exact ⟨other, .tail _ hother, hvalue⟩

theorem executeAll_terminator (hop : op.instruction.isTerminator) :
    executeAll interp args arrival state [op] = some (state, record interp state op) := by
  have hphi : op.isPhi = false := by
    cases hinst : op.instruction <;> simp_all [Instruction.isTerminator, Operation.isPhi]
  simp [executeAll, execute, hphi, hop]

end

/-! ## The graph without the phi -/

/-- What becomes of block `q` when the phi at a position of block `b` is turned into copies. -/
def loweredBlock (temporary : Nat) (phi : Operation) (dest : Operand) (b pos q : Nat)
    (block : Block) : Block :=
  withCopies (copiesFor (.localVar temporary dest.type) phi.inputs q)
    { block with
      operations := if q = b then
          block.operations.set pos (.copy dest (.localVar temporary dest.type))
        else block.operations }

/-- What turning a phi into copies does to a graph, whichever local serves as the temporary. -/
structure LowersThrough (temporary : Nat) (graph : Graph) (phi : Operation) (dest : Operand)
    (b pos : Nat) (result : Graph) : Prop where
  locals : result.locals = (graph.locals.fresh dest.type).2
  size : result.size = graph.size
  kept : ∀ {q : Nat} {block : Block}, graph.blocks[q]? = some block →
    result.blocks[q]? = some (loweredBlock temporary phi dest b pos q block)

/-- The temporary is a new local. -/
abbrev LowersInto (graph : Graph) : Operation → Operand → Nat → Nat → Graph → Prop :=
  LowersThrough graph.locals.count graph

theorem lowerPhi_eq {phi : Operation} {dest : Operand} (hdest : phi.destination = some dest)
    (b pos : Nat) (graph : Graph) : lowerPhi b pos graph phi =
      ((graph.newLocal dest.type).2.modify b fun block => { block with
        operations := block.operations.set pos (.copy dest (graph.newLocal dest.type).1) }) >>=
      phi.inputs.foldlM (copyAtEnd (graph.newLocal dest.type).1) := by
  unfold lowerPhi
  rw [hdest]

/-- Numbers of locals wrap around, so the temporary is only new as long as they fit. -/
theorem exists_lowersThrough {phi : Operation} {dest : Operand} (pos : Nat)
    (hb : b < graph.size) (hdest : phi.destination = some dest)
    (hlabels : ∀ input ∈ phi.inputs, input.1 < graph.size) :
    ∃ result, lowerPhi b pos graph phi = .ok result ∧
      LowersThrough (graph.locals.count % twoPow 32) graph phi dest b pos result := by
  let temporary : Operand := .localVar (graph.locals.count % twoPow 32) dest.type
  let middle : Graph :=
    { blocks := graph.blocks.modify b fun block =>
        { block with operations := block.operations.set pos (.copy dest temporary) }
      locals := (graph.locals.fresh dest.type).2 }
  have hmiddle : lowerPhi b pos graph phi = phi.inputs.foldlM (copyAtEnd temporary) middle := by
    have hnew : b < (graph.newLocal dest.type).2.size := hb
    rw [lowerPhi_eq hdest, Graph.modify_eq_ok _ hnew]
    rfl
  have hlabels' : ∀ input ∈ phi.inputs, input.1 < middle.size := by
    simpa [middle, Graph.size] using hlabels
  obtain ⟨result, hresult, hlocals, hsize, hblocks⟩ := foldlM_copyAtEnd temporary hlabels'
  refine ⟨result, hmiddle.trans hresult, hlocals, ?_, ?_⟩
  · simpa [middle, Graph.size] using hsize
  · intro q block hblock
    refine hblocks ?_
    by_cases hq : b = q <;>
      simp [middle, temporary, Array.getElem?_modify, hblock, hq, eq_comm (a := q)]

theorem not_terminator_of_isPhi (hphi : op.isPhi) : op.instruction.isTerminator = false := by
  have hop : op.instruction = .phi := by simpa [Operation.isPhi] using hphi
  rw [hop]
  rfl

theorem terminator?_set {new : Operation} (hop : block.operations[pos]? = some op)
    (hold : op.instruction.isTerminator = false) (hnew : new.instruction.isTerminator = false) :
    terminator? { block with operations := block.operations.set pos new } = block.terminator? := by
  have hlt := (List.getElem?_eq_some_iff.mp hop).1
  simp only [terminator?, getLast?_eq_getElem?, length_set, getElem?_set]
  by_cases hlast : pos = block.operations.length - 1
  · subst hlast
    rw [if_pos rfl, if_pos hlt, hop]
    simp [Option.filter, hold, hnew]
  · simp [hlast]

theorem forall₂_set {related : α → α → Prop} {xs : List α} {x y : α} (hsame : ∀ x ∈ xs, related x x)
    (hx : xs[pos]? = some x) (hxy : related x y) : Forall₂ related xs (xs.set pos y) := by
  induction xs generalizing pos with
  | nil => simp at hx
  | cons head tail ih =>
    have htail : ∀ x ∈ tail, related x x := fun x hx => hsame x (.tail _ hx)
    cases pos with
    | zero =>
      obtain rfl : head = x := by simpa using hx
      exact .cons hxy (forall₂_same.mpr htail)
    | succ pos => exact .cons (hsame head mem_cons_self) (ih htail (by simpa using hx))

section

variable {graph result : Graph} {phi : Operation} {dest : Operand} {b pos : Nat}

/-- The phi that is lowered, in its place. -/
structure PhiAt (graph : Graph) (phi : Operation) (dest : Operand) (b pos : Nat) :
    Prop where
  isPhi : phi.isPhi
  destination : phi.destination = some dest
  place : ∀ {block : Block}, graph.blocks[b]? = some block → block.operations[pos]? = some phi

variable {block : Block} {q count temporary : Nat} {events : List (Event Value Memory)}
  {first second after : State Value Memory}

section

variable (hphi : PhiAt graph phi dest b pos) (hblock : graph.blocks[q]? = some block)
  (havoid : ∀ op ∈ block.operations, Avoids temporary op)
include hphi hblock havoid

/-- Operations of a lowered block: those it had, with the phi exchanged, and the copies before
the terminator. -/
theorem loweredBlock_operations : ∃ body body' tail, block.operations = body ++ tail ∧
      (loweredBlock temporary phi dest b pos q block).operations =
        body' ++ copiesFor (.localVar temporary dest.type) phi.inputs q ++ tail ∧
      Forall₂ (Lowered temporary phi dest (q = b)) body body' ∧
      (tail = [] ∨ ∃ op, tail = [op] ∧ op.instruction.isTerminator) ∧
      (loweredBlock temporary phi dest b pos q block).terminator? = block.terminator? := by
  let new : Operation := .copy dest (.localVar temporary dest.type)
  let changed : Block :=
    { block with operations := if q = b then block.operations.set pos new else block.operations }
  have hterm : changed.terminator? = block.terminator? := by
    by_cases hq : q = b
    · subst hq
      simp only [changed, if_true]
      exact terminator?_set (hphi.place hblock) (not_terminator_of_isPhi hphi.isPhi) rfl
    · simp only [changed, if_neg hq]
  have hrel : Forall₂ (Lowered temporary phi dest (q = b)) block.operations changed.operations := by
    have hsame : ∀ op ∈ block.operations, Lowered temporary phi dest (q = b) op op :=
      fun op hop => .same (havoid op hop)
    by_cases hq : q = b
    · subst hq
      have hops : changed.operations = block.operations.set pos new := if_pos rfl
      rw [hops]
      exact forall₂_set hsame (hphi.place hblock) (.copy rfl)
    · simp only [changed, if_neg hq]
      exact forall₂_same.mpr hsame
  have hterm' : (loweredBlock temporary phi dest b pos q block).terminator? =
      block.terminator? := (withCopies_terminator? copiesFor_not_terminator changed).trans hterm
  rcases insertionPoint_cases changed with ⟨body', op, hops', hop, hnew, hpoint⟩ | ⟨hnew, hpoint⟩
  · rcases insertionPoint_cases block with ⟨body, last, hops, -, hold, -⟩ | ⟨hold, -⟩
    · obtain rfl : last = op := by
        rw [hterm, hold] at hnew
        exact Option.some.inj hnew
      refine ⟨body, body', [last], hops, ?_, ?_, .inr ⟨last, rfl, hop⟩, hterm'⟩
      · change changed.operations.take changed.insertionPoint ++ _ ++
          changed.operations.drop changed.insertionPoint = _
        rw [hpoint, hops', take_left, drop_left]
      · rw [hops, hops'] at hrel
        have hlength : body.length = body'.length := by simpa using hrel.length_eq
        have htake := forall₂_take body.length hrel
        rwa [take_left, hlength, take_left] at htake
    · rw [hterm, hold] at hnew
      simp at hnew
  · refine ⟨block.operations, changed.operations, [], by simp, ?_, hrel, .inl rfl, hterm'⟩
    change changed.operations.take changed.insertionPoint ++ _ ++
      changed.operations.drop changed.insertionPoint = _
    rw [hpoint, take_length, drop_length]

/-- Running a lowered block: the same operations with the same values, and at the end the
temporary holds the input of the phi for the edges that leave the block. -/
theorem executeAll_loweredBlock (hown : Avoids temporary phi)
    (hcoherent : ∀ {label src other}, (label, src) ∈ phi.inputs → (label, other) ∈ phi.inputs → src = other)
    (hcount : count ≤ temporary) {arrival arrival' : Option (Nat × State Value Memory)}
    (harr : ArrivalAgrees temporary arrival arrival') (hagree : AgreeOff temporary first second)
    (hvalue : q = b → ∀ value, phiValue interp arrival phi = some value →
      second.locals temporary = value)
    (hexec : executeAll interp args arrival first block.operations = some (after, events)) :
    ∃ after' events', executeAll interp args arrival' second
        (loweredBlock temporary phi dest b pos q block).operations = some (after', events') ∧
      AgreeOff temporary after after' ∧ original count events' = original count events ∧
      ∀ src, phi.inputs.lookup q = some src → after'.locals temporary = after.read interp src := by
  obtain ⟨body, body', tail, hops, hops', hrel, htail, -⟩ :=
    loweredBlock_operations hphi hblock havoid
  rw [hops, executeAll_append] at hexec
  split at hexec
  next => simp at hexec
  next middle before hbody =>
    split at hexec
    next => simp at hexec
    next last more hlast =>
      cases hexec
      obtain ⟨middle', before', hbody', hagree', hbefore⟩ := executeAll_lowered hrel hphi.isPhi hown
        hphi.destination hcount harr hagree hvalue hbody
      let sources := (phi.inputs.filter (·.1 == q)).map Prod.snd
      have hmem : ∀ src ∈ sources, (q, src) ∈ phi.inputs := by
        intro src hsrc
        obtain ⟨⟨label, other⟩, hkept, rfl⟩ := mem_map.mp hsrc
        obtain ⟨hinput, hlabel⟩ := mem_filter.mp hkept
        obtain rfl : label = q := beq_iff_eq.mp hlabel
        exact hinput
      have hsrcs : ∀ src ∈ sources, src.localId? ≠ some temporary :=
        fun src hsrc => hown.source (of_mem_zip (hmem src hsrc)).2
      have hcopies : copiesFor (.localVar temporary dest.type) phi.inputs q =
          sources.map fun src => .copy (.localVar temporary dest.type) src := by
        simp [copiesFor, sources, Function.comp_def]
      obtain ⟨held, copied, hheld, hagree'', hcopied, hset⟩ := executeAll_copies
        interp args arrival' dest.type hsrcs hcount hagree'
      rw [← hcopies] at hheld
      have hfinal : after = middle ∧ executeAll interp args arrival' held tail =
          some (held, more) := by
        rcases htail with rfl | ⟨op, rfl, hop⟩
        · cases hlast
          exact ⟨rfl, rfl⟩
        · rw [executeAll_terminator hop] at hlast ⊢
          cases hlast
          have hmem : op ∈ block.operations := by simp [hops]
          exact ⟨rfl, by rw [(havoid op hmem).record hagree'']⟩
      obtain ⟨rfl, htail'⟩ := hfinal
      refine ⟨held, before' ++ copied ++ more, ?_, hagree'', ?_, ?_⟩
      · simp only [hops', executeAll_append, hbody', hheld, htail']
      · simp only [original_append, hbefore, hcopied, append_nil]
      · intro src hsrc
        have hinput := mem_of_lookup hsrc
        have hne : sources ≠ [] := ne_nil_of_mem
          (mem_map.mpr ⟨(q, src), mem_filter.mpr ⟨hinput, by simp⟩, rfl⟩)
        obtain ⟨other, hother, hread⟩ := hset hne
        rw [hread, hcoherent hinput (hmem other hother)]

end

theorem leave_agree {block' : Block} (hterm : block'.terminator? = block.terminator?)
    (havoid : ∀ op ∈ block.operations, Avoids temporary op)
    (hagree : AgreeOff temporary first second) :
    leave interp second block' = leave interp first block := by
  unfold leave
  rw [hterm]
  cases hop : block.terminator? with
  | none => rfl
  | some op =>
    have hmem : op ∈ block.operations := mem_of_getLast? (Option.filter_eq_some_iff.mp hop).1
    simp only [(havoid op hmem).read_sources hagree, hagree.memory]

variable (interp) in
/-- The same block and, off the temporary, the same states. In front of the phi the temporary
holds the value that the phi takes. -/
structure LowerRelated (temporary : Nat) (phi : Operation) (b : Nat)
    (first second : Position Value Memory) : Prop where
  block : second.block = first.block
  state : AgreeOff temporary first.state second.state
  arrival : ArrivalAgrees temporary first.arrival second.arrival
  value : first.block = b → ∀ value, phiValue interp first.arrival phi = some value →
    second.state.locals temporary = value

theorem Eliminable.avoids (helim : Eliminable graph) (hblock : graph.blocks[q]? = some block) :
    ∀ op ∈ block.operations, Avoids graph.locals.count op :=
  fun _ hop _ hopnd hid => absurd (helim.locals hblock hop hopnd hid) (Nat.lt_irrefl _)

/-- One block of the graph without the phi. -/
theorem LowerRelated.execute (hlower : LowersInto graph phi dest b pos result)
    (helim : Eliminable graph) (hphi : PhiAt graph phi dest b pos) (hb : b < graph.size)
    (hcount : count ≤ graph.locals.count) {first second : Position Value Memory}
    (hrel : LowerRelated interp graph.locals.count phi b first second)
    (hblock : graph.blocks[first.block]? = some block)
    (hexec : executeAll interp args first.arrival first.state block.operations =
      some (after, events)) : ∃ block' after' events', result.blocks[second.block]? = some block' ∧
      executeAll interp args second.arrival second.state block'.operations =
        some (after', events') ∧ block'.successors = block.successors ∧
      leave interp after' block' = leave interp after block ∧
      original count events' = original count events ∧ after'.memory = after.memory ∧
      ∀ target, LowerRelated interp graph.locals.count phi b
        ⟨target, some (first.block, after), after⟩ ⟨target, some (second.block, after'), after'⟩ := by
  obtain ⟨home, hhome⟩ := Graph.exists_block hb
  have hmem : phi ∈ home.operations := mem_of_getElem? (hphi.place hhome)
  have havoid := helim.avoids hblock
  obtain ⟨after', events', hexec', hagree, hevents, hvalue⟩ :=
    executeAll_loweredBlock hphi hblock havoid (helim.avoids hhome phi hmem)
      (helim.phis hhome hmem hphi.isPhi).coherent hcount hrel.arrival hrel.state hrel.value hexec
  obtain ⟨-, -, -, -, -, -, -, hterm⟩ := loweredBlock_operations hphi hblock havoid
  refine ⟨_, after', events', ?_, hexec', rfl, leave_agree hterm havoid hagree, hevents,
    hagree.memory, ?_⟩
  · rw [hrel.block]
    exact hlower.kept hblock
  · intro target
    refine ⟨rfl, hagree, ?_, ?_⟩
    · rintro label past ⟨⟩
      exact ⟨after', by rw [hrel.block], hagree⟩
    · intro _ value hphiValue
      simp only [phiValue, Option.bind_eq_bind, Option.bind_some, Option.pure_def,
        Option.bind_eq_some_iff] at hphiValue
      obtain ⟨src, hsrc, hread⟩ := hphiValue
      rw [hvalue src hsrc, Option.some.inj hread]

theorem erasedVisit_original {events' : List (Event Value Memory)} (isEdge : Nat → Bool)
    (hevents : original count events' = original count events) :
    erasedVisit isEdge (isInserted count) ⟨q, events'⟩ =
      erasedVisit isEdge (isInserted count) ⟨q, events⟩ := by
  unfold original at hevents
  cases hq : isEdge q <;> simp [erasedVisit, Trace.erase, hq, hevents]

/-- Runs of the graph with one phi turned into copies, the copies left out. -/
theorem lowerPhi_simulates (hlower : LowersInto graph phi dest b pos result)
    (helim : Eliminable graph) (hphi : PhiAt graph phi dest b pos) (hb : b < graph.size)
    (hcount : count ≤ graph.locals.count) (isEdge : Nat → Bool) :
    Simulates interp args isEdge (isInserted count) graph result
      (LowerRelated interp graph.locals.count phi b) where
  block := LowerRelated.block
  memory hrel := hrel.state.memory
  halt {first second trace} hrel hmove hdef := by
    rcases move_eq_halt hmove hdef with
      ⟨hnone, rfl⟩ | ⟨block, after, events, hblock, hexec, hend⟩
    · have hnone' : result.blocks[second.block]? = none := by
        have hsize := hlower.size
        rw [hrel.block]
        simp only [Graph.size, Array.getElem?_eq_none_iff] at *
        omega
      exact ⟨_, by simp only [move, hnone'], rfl⟩
    · obtain ⟨block', after', events', hblock', hexec', hsucc, hleave, hevents, hmemory, -⟩ :=
        hrel.execute hlower helim hphi hb hcount hblock hexec
      have hvisit := erasedVisit_original (q := first.block) isEdge hevents
      rcases hend with ⟨vals, hret, rfl⟩ | ⟨slot, hslot, hnone, rfl⟩
      · refine ⟨⟨[⟨second.block, events'⟩], .returned vals after'.memory⟩, ?_, ?_⟩
        · simp only [move, hblock', hexec', hleave, hret]
        · rw [hrel.block, hmemory]
          exact congrArg (Trace.mk · _) hvisit
      · refine ⟨⟨[⟨second.block, events'⟩], .stuck⟩, ?_, ?_⟩
        · simp only [move, hblock', hexec', hleave, hslot, hsucc, hnone]
        · rw [hrel.block]
          exact congrArg (Trace.mk · _) hvisit
  go {first second visit next} hrel hmove := by
    obtain ⟨block, after, events, slot, target, hblock, hexec, hslot, htarget, rfl, rfl⟩ :=
      move_eq_go hmove
    obtain ⟨block', after', events', hblock', hexec', hsucc, hleave, hevents, -, hnext⟩ :=
      hrel.execute hlower helim hphi hb hcount hblock hexec
    refine ⟨⟨second.block, events'⟩, ⟨target, some (second.block, after'), after'⟩, ?_, ?_,
      .inl (hnext target)⟩
    · simp only [move, hblock', hexec', hleave, hslot, hsucc, htarget]
    · rw [hrel.block]
      exact erasedVisit_original isEdge hevents

end

/-! ## Block after block -/

/-- Split the edges into a block that the copies of its phis need for themselves. -/
def splitBefore (b : Nat) (graph : Graph) (block : Block) : Except Fault (Graph × Nat) :=
  if 1 < block.predecessors.length then splitCritical b graph block.predecessors
  else .ok (graph, 0)

/-- The phis of a block with their positions. -/
def phisOf (block : Block) : List (Operation × Nat) :=
  block.operations.zipIdx.filter fun entry => entry.1.isPhi

/-- Lower phis at their positions, one after the other. -/
def lowerPhis (b : Nat) (phis : List (Operation × Nat)) : Graph → Except Fault Graph :=
  phis.foldlM fun graph phi => lowerPhi b phi.2 graph phi.1

theorem lowerBlock_eq_bind (graph : Graph) (b : Nat) :
    lowerBlock graph b = graph.block b >>= fun block =>
      if block.hasPhi then splitBefore b graph block >>= fun mid => mid.1.block b >>= fun home =>
          (lowerPhis b (phisOf home) mid.1).map (·, mid.2)
      else .ok (graph, 0) := by
  unfold lowerBlock splitBefore
  refine bind_congr fun block => ?_
  cases block.hasPhi with
  | false => rfl
  | true => by_cases hmany : 1 < block.predecessors.length <;> simp only [hmany] <;> rfl

theorem lowerBlock_of_no_phi (hblock : graph.blocks[b]? = some block)
    (hphi : block.hasPhi = false) : lowerBlock graph b = .ok (graph, 0) := by
  rw [lowerBlock_eq_bind, Graph.block_eq_ok hblock]
  exact if_neg (by simp [hphi])

/-- The edges into a block with phis are split, and then its phis are lowered in order. -/
theorem lowerBlock_eq {middle : Graph} {splits : Nat} {home : Block}
    (hblock : graph.blocks[b]? = some block) (hphi : block.hasPhi = true)
    (hmiddle : splitBefore b graph block = .ok (middle, splits))
    (hhome : middle.blocks[b]? = some home) :
    lowerBlock graph b = (lowerPhis b (phisOf home) middle).map (·, splits) := by
  rw [lowerBlock_eq_bind, Graph.block_eq_ok hblock]
  refine (if_pos hphi).trans ?_
  rw [hmiddle]
  change (middle.block b >>= _) = _
  rw [Graph.block_eq_ok hhome]
  rfl

/-- Remove the phis of one more block, and count the edges split so far. -/
def lowerNext (state : Graph × Nat) (b : Nat) : Except Fault (Graph × Nat) :=
  lowerBlock state.1 b >>= fun result => .ok (result.1, state.2 + result.2)

/-- Remove the phis of the first `n` blocks, and count the edges that were split. -/
def lowerBlocks (graph : Graph) (n : Nat) : Except Fault (Graph × Nat) :=
  (List.range n).foldlM lowerNext (graph, 0)

theorem lowerBlocks_succ (graph : Graph) (n : Nat) :
    lowerBlocks graph (n + 1) = lowerBlocks graph n >>= (lowerNext · n) := by
  rw [lowerBlocks, range_succ, foldlM_append]
  simp only [foldlM_cons, foldlM_nil, bind_pure]
  rfl

end GraphJit.SSA
