import GraphJit.Code.Edit
import GraphJit.X64.Encode

/-! # The code stream

Code is emitted as a sequence of items: instructions, block starts, far jumps,
and near jumps. A near jump skips forward to where it is closed; its distance
must fit the short form, and only one can be open at a time. Far jumps leave
placeholders, near jumps leave patches; both are filled in at the end. Instructions
are encoded later than they are emitted, but before the position is looked at and
before other bytes follow.
-/

namespace GraphJit.Code

open X64

/-- One step of emission. -/
inductive Item where
  | instr (instr : Instr)
  | bytes (bytes : List UInt8)
  /-- Zero bytes. -/
  | padding (count : Nat)
  /-- A block starts here. -/
  | enter (block : Nat)
  /-- Jump to a block, always or under a condition. -/
  | jump (condition : Option Condition) (target : Nat)
  /-- Under a condition skip to where the jump is closed. -/
  | openNear (condition : Condition)
  | closeNear
deriving DecidableEq, Repr

/-- A near jump that has not been closed. -/
structure NearJump where
  position : Nat
  condition : Condition
deriving DecidableEq, Repr

structure Stream where
  /-- Whether the extended vector instruction set is used. -/
  avx : Bool
  code : Array UInt8 := #[]
  /-- Where each block starts, once it has been entered. -/
  blocks : Array (Option Nat)
  jumps : Array Jump := #[]
  patches : Array Edit := #[]
  near : Option NearJump := none
deriving Repr

namespace Stream

def new (avx : Bool) (blockCount : Nat) : Stream :=
  { avx, blocks := Array.replicate blockCount none }

def position (stream : Stream) : Nat :=
  stream.code.size

def append (stream : Stream) (bytes : List UInt8) : Stream :=
  { stream with code := stream.code ++ bytes }

def pad (stream : Stream) (count : Nat) : Stream :=
  stream.append (List.replicate count 0)

/-- Length of the placeholder of a near jump. -/
def nearSize : Nat := jccLength 0

def enter (stream : Stream) (block : Nat) : Except CompileError Stream :=
  match stream.blocks[block]? with
  | none => .error (.unresolvedBlock block)
  | some (some _) => .error (.unsupported (.emittedTwice block))
  | some none =>
    .ok { stream with blocks := stream.blocks.setIfInBounds block (some stream.position) }

def jump (stream : Stream) (condition : Option Condition) (target : Nat) : Stream :=
  let size := placeholderSize condition
  let jump : Jump := { target, position := stream.position, condition, size }
  { stream with jumps := stream.jumps.push jump }.pad size

def openNear (stream : Stream) (condition : Condition) : Except CompileError Stream :=
  match stream.near with
  | some _ => .error (.nearJumpState .alreadyOpen)
  | none =>
    let opened := { stream with near := some { position := stream.position, condition } }
    .ok (opened.pad nearSize)

/-- The patch of a near jump that ends at a position. -/
def nearPatch (near : NearJump) (position : Nat) : Except CompileError Edit :=
  let offset : Int := (position : Int) - ((near.position + nearSize : Nat) : Int)
  match shortestJcc near.condition offset with
  | .error cause => .error (.encoding cause)
  | .ok bytes =>
    if jccLength offset ≠ nearSize ∨ bytes.length ≠ nearSize then
      .error (.nearJumpOutOfRange near.position offset nearSize (jccLength offset))
    else .ok ⟨near.position, bytes⟩

/-- Close the open near jump. It counts as closed even if it turns out to be too long. -/
def closeNear (stream : Stream) : Stream × Except CompileError Unit :=
  match stream.near with
  | none => (stream, .error (.nearJumpState .notOpen))
  | some near =>
    let closed := { stream with near := none }
    match nearPatch near stream.position with
    | .error cause => (closed, .error cause)
    | .ok patch => ({ closed with patches := closed.patches.push patch }, .ok ())

/-- The result of a step that leaves the stream alone if it fails. -/
def attempt (stream : Stream) : Except CompileError Stream → Stream × Except CompileError Unit
  | .ok next => (next, .ok ())
  | .error cause => (stream, .error cause)

/-- Emit one item. -/
def step (stream : Stream) : Item → Stream × Except CompileError Unit
  | .instr instr => (stream.append (instr.encode stream.avx), .ok ())
  | .bytes bytes => (stream.append bytes, .ok ())
  | .padding count => (stream.pad count, .ok ())
  | .enter block => stream.attempt (stream.enter block)
  | .jump condition target => (stream.jump condition target, .ok ())
  | .openNear condition => stream.attempt (stream.openNear condition)
  | .closeNear => stream.closeNear

/-- Emit items up to the first that fails. -/
def emit (stream : Stream) : List Item → Except CompileError Stream
  | [] => .ok stream
  | item :: items =>
    match stream.step item with
    | (next, .ok ()) => next.emit items
    | (_, .error cause) => .error cause

/-- The final code, with all placeholders filled in. Positions are signed words of 64 bits,
which no code outgrows. -/
def finish (stream : Stream) : Outcome (List UInt8) := do
  if twoPow 63 ≤ stream.position then .error (.fault .sizeOverflow)
  else if stream.near.isSome then .error (.error (.nearJumpState .leftOpen))
  else
    let jumps := stream.jumps.toList
    let resolution ← resolve jumps stream.blocks
    linearize stream.code.toList jumps resolution stream.patches.toList

end Stream

/-- A stream with instructions behind its code that are not encoded yet. -/
structure Buffer where
  stream : Stream
  pending : Array Instr := #[]
deriving Repr

namespace Buffer

def new (avx : Bool) (blockCount : Nat) : Buffer :=
  { stream := .new avx blockCount }

/-- Encode what is pending. No bytes depend on where they stand. -/
def flush (buffer : Buffer) : Stream :=
  buffer.stream.append (buffer.pending.toList.flatMap (Instr.encode buffer.stream.avx))

def position (buffer : Buffer) : Buffer × Nat :=
  ({ stream := buffer.flush }, buffer.flush.position)

/-- Emit one item. Instructions are left pending, but for jumps. -/
def step (buffer : Buffer) : Item → Buffer × Except CompileError Unit
  | .instr instr =>
    match instr.branch? with
    | none => ({ buffer with pending := buffer.pending.push instr }, .ok ())
    | some (.ok bytes) => ({ stream := buffer.flush.append bytes }, .ok ())
    | some (.error cause) => (buffer, .error (.encoding cause))
  | item =>
    let (stream, result) := buffer.flush.step item
    ({ stream }, result)

/-- Emit items up to the first that fails. -/
def emit (buffer : Buffer) : List Item → Except CompileError Buffer
  | [] => .ok buffer
  | item :: items =>
    match buffer.step item with
    | (next, .ok ()) => next.emit items
    | (_, .error cause) => .error cause

def finish (buffer : Buffer) : Outcome (List UInt8) :=
  buffer.flush.finish

end Buffer

end GraphJit.Code
