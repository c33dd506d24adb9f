import GraphJit.X64.Branch

/-! # Far jumps

A far jump is emitted as a placeholder of fixed size, because the block it goes
to may not have been emitted yet. Its offset is found afterwards from the table
of block positions.
-/

namespace GraphJit.Code

open X64

/-- A far jump waiting for its offset. -/
structure Jump where
  /-- Block to jump to. -/
  target : Nat
  /-- Where the placeholder stands. -/
  position : Nat
  condition : Option Condition := none
  /-- Length of the placeholder. -/
  size : Nat
deriving DecidableEq, Repr

/-- Length of the long form of a jump. -/
def placeholderSize : Option Condition → Nat
  | none => 5
  | some _ => 6

namespace Jump

/-- The long form of a jump with a known offset. -/
def encode (jump : Jump) (offset : Int) : Except EncodingError (List UInt8) :=
  match jump.condition with
  | some condition => longJcc condition offset
  | none => longJmp offset

end Jump

/-- The offset of every jump, and the number of passes that changed one. -/
structure Resolution where
  offsets : List Int
  iterations : Nat
deriving DecidableEq, Repr

/-- A difference that has to be a signed word of 64 bits. -/
def wordDifference (value : Int) : Except Fault Int :=
  if fitsSigned 64 value then .ok value else .error .sizeOverflow

/-- A position taken as a signed word of 64 bits. -/
def signedPosition (position : Nat) : Int :=
  (BitVec.ofNat 64 position).toInt

/-- Offset of a jump from the end of its placeholder to its block. -/
def Jump.offset (blocks : Array (Option Nat)) (jump : Jump) : Outcome Int := do
  match blocks[jump.target]?.join with
  | none => .error (.error (.unresolvedBlock jump.target))
  | some target =>
    let distance ← wordDifference (signedPosition target - signedPosition jump.position)
    wordDifference (distance - signedPosition jump.size)

/-- Passes that may change an offset. -/
def maxIterations : Nat := 64

/-- Compute all offsets until a pass changes none of them. -/
def settle (jumps : List Jump) (blocks : Array (Option Nat)) :
    Nat → Nat → List (Option Int) → Outcome Resolution
  | fuel, iterations, known => do
      let offsets ← jumps.mapM (Jump.offset blocks)
      if offsets.map some = known then return ⟨offsets, iterations⟩
      match fuel with
      | 0 => .error (.error (.resolutionDiverged (iterations + 1)))
      | fuel + 1 => settle jumps blocks fuel (iterations + 1) (offsets.map some)

/-- Offsets of far jumps, given where each block starts. -/
def resolve (jumps : List Jump) (blocks : Array (Option Nat)) : Outcome Resolution :=
  settle jumps blocks maxIterations 0 (jumps.map fun _ => none)

end GraphJit.Code
