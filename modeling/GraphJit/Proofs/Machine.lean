import GraphJit.IR.Graph

/-! # An abstract machine

A graph is read as a program over guest registers, locals and a memory. Values
are opaque: a write replaces a whole variable, a copy moves a value, a phi takes
the value that its input for the edge just taken had when the predecessor was
left, and everything else is up to an interpretation. Runs are compared by the
blocks they visit and the operations they carry out there.
-/

namespace GraphJit.Machine

/-- What the operations of a graph compute. -/
structure Interpretation (Value Memory : Type) where
  constant : BitVec 64 → ValueType → Value
  /-- Content of every guest register at the entry. -/
  zero : Value
  /-- Result and memory effect of an instruction, from the type of its destination, the
  types and values of its sources, the arguments of the function, and the memory. -/
  compute : Instruction → Option ValueType → List ValueType → List Value → List Value →
    Memory → Value × Memory
  /-- Successor slot that a conditional branch picks. -/
  slot : Instruction → List ValueType → List Value → Memory → Nat

/-- The variables and the memory. -/
structure State (Value Memory : Type) where
  registers : GuestRegister → Value
  locals : Nat → Value
  memory : Memory

/-- An operation that was carried out, with the values of its sources and the memory that
it found. -/
structure Event (Value Memory : Type) where
  operation : Operation
  values : List Value
  memory : Memory

/-- One passage through a block. -/
structure Visit (Value Memory : Type) where
  block : Nat
  events : List (Event Value Memory)

/-- The block to run next, and the block and state that control comes from. -/
structure Position (Value Memory : Type) where
  block : Nat
  arrival : Option (Nat × State Value Memory)
  state : State Value Memory

inductive Ending (Value Memory : Type) where
  /-- Stopped by the bound on the number of blocks. -/
  | running (block : Nat) (memory : Memory)
  | returned (values : List Value) (memory : Memory)
  /-- There is no such block or successor slot. -/
  | stuck
  /-- A phi has no input for the way its block was entered. -/
  | undefined

structure Trace (Value Memory : Type) where
  visits : List (Visit Value Memory)
  ending : Ending Value Memory

/-- What one block does: stop, or go on somewhere. -/
inductive Move (Value Memory : Type) where
  | halt (trace : Trace Value Memory)
  | go (visit : Visit Value Memory) (next : Position Value Memory)

variable {Value Memory : Type}

namespace State

def read (interp : Interpretation Value Memory) (state : State Value Memory) : Operand → Value
  | .constant bits type => interp.constant bits type
  | .register guest _ => state.registers guest
  | .localVar id _ => state.locals id

/-- Replace the variable that a destination names, if there is one. -/
def write (state : State Value Memory) (dest : Option Operand) (value : Value) :
    State Value Memory :=
  match dest with
  | some (.register guest _) =>
    { state with registers := fun other => if other = guest then value else state.registers other }
  | some (.localVar id _) =>
    { state with locals := fun other => if other = id then value else state.locals other }
  | _ => state

end State

/-- In front of the entry block; no edge was taken yet. -/
def start (state : State Value Memory) : Position Value Memory := ⟨Graph.entry, none, state⟩

section

variable (interp : Interpretation Value Memory) (args : List Value)

/-- The effect of an operation that is neither a phi nor a terminator. -/
def apply (state : State Value Memory) (op : Operation) : State Value Memory :=
  match op.instruction, op.sources with
  | .copy, [src] => state.write op.destination (state.read interp src)
  | instruction, sources =>
    let (value, memory) := interp.compute instruction (op.destination.map Operand.type)
      (sources.map Operand.type) (sources.map (state.read interp)) args state.memory
    { state with memory }.write op.destination value

/-- The value that a phi takes, if it has an input for the edge just taken. -/
def phiValue (arrival : Option (Nat × State Value Memory)) (op : Operation) : Option Value := do
  let (label, past) ← arrival
  let src ← op.inputs.lookup label
  return past.read interp src

/-- Carry out one operation. Terminators act when the block is left. -/
def execute (arrival : Option (Nat × State Value Memory)) (state : State Value Memory)
    (op : Operation) : Option (State Value Memory) :=
  if op.isPhi then (phiValue interp arrival op).map (state.write op.destination)
  else if op.instruction.isTerminator then some state
  else some (apply interp args state op)

/-- What an operation leaves in the trace. Phis belong to the edges and leave nothing. -/
def record (state : State Value Memory) (op : Operation) : List (Event Value Memory) :=
  if op.isPhi then [] else [⟨op, op.sources.map (state.read interp), state.memory⟩]

/-- Carry out operations in order. -/
def executeAll (arrival : Option (Nat × State Value Memory)) : State Value Memory → List Operation →
      Option (State Value Memory × List (Event Value Memory))
  | state, [] => some (state, [])
  | state, op :: rest =>
    match execute interp args arrival state op with
    | none => none
    | some next =>
      match executeAll arrival next rest with
      | none => none
      | some (last, events) => some (last, record interp state op ++ events)

/-- How a block is left: with returned values, or through a successor slot. -/
def leave (state : State Value Memory) (block : Block) : Except (List Value) Nat :=
  match block.terminator? with
  | none => .ok 0
  | some op =>
    match op.instruction with
    | .ret => .error (op.sources.map (state.read interp))
    | .branchIf _ =>
      .ok (interp.slot op.instruction (op.sources.map Operand.type)
        (op.sources.map (state.read interp)) state.memory)
    | _ => .ok 0

/-- Run one block. -/
def move (graph : Graph) (pos : Position Value Memory) : Move Value Memory :=
  match graph.blocks[pos.block]? with
  | none => .halt ⟨[], .stuck⟩
  | some block =>
    match executeAll interp args pos.arrival pos.state block.operations with
    | none => .halt ⟨[], .undefined⟩
    | some (state, events) =>
      match leave interp state block with
      | .error values => .halt ⟨[⟨pos.block, events⟩], .returned values state.memory⟩
      | .ok slot =>
        match block.successors[slot]? with
        | none => .halt ⟨[⟨pos.block, events⟩], .stuck⟩
        | some next =>
          .go ⟨pos.block, events⟩ ⟨next, some (pos.block, state), state⟩

/-- Run at most `bound` blocks. -/
def run (graph : Graph) : Nat → Position Value Memory → Trace Value Memory
  | 0, pos => ⟨[], .running pos.block pos.state.memory⟩
  | bound + 1, pos =>
    match move interp args graph pos with
    | .halt trace => trace
    | .go visit next =>
      let trace := run graph bound next
      ⟨visit :: trace.visits, trace.ending⟩

end

/-- Leave out the visits of some blocks, and some operations of the other visits. -/
def Trace.erase (isEdge : Nat → Bool) (isInserted : Operation → Bool)
    (trace : Trace Value Memory) : Trace Value Memory :=
  { trace with
    visits := (trace.visits.filter fun visit => !isEdge visit.block).map fun visit =>
      { visit with events := visit.events.filter fun event => !isInserted event.operation } }

/-- What is seen of an operation that was carried out, whatever its variables are called. -/
structure Observation (Value Memory : Type) where
  instruction : Instruction
  destination : Option ValueType
  sources : List ValueType
  values : List Value
  memory : Memory

def Event.observe (event : Event Value Memory) : Observation Value Memory where
  instruction := event.operation.instruction
  destination := event.operation.destination.map Operand.type
  sources := event.operation.sources.map Operand.type
  values := event.values
  memory := event.memory

/-- The blocks that are visited with what is seen there, and the ending. -/
def Trace.observe (trace : Trace Value Memory) :
    List (Nat × List (Observation Value Memory)) × Ending Value Memory :=
  (trace.visits.map fun visit => (visit.block, visit.events.map Event.observe), trace.ending)

/-- Numbers without a memory. -/
def numbers : Interpretation Nat Unit where
  constant bits _ := bits.toNat
  zero := 0
  compute _ _ _ _ _ _ := (0, ())
  slot _ _ _ _ := 0

def zeroed : State Nat Unit := ⟨fun _ => 0, fun _ => 0, ()⟩

end GraphJit.Machine
