import GraphJit.Code.Jump

/-! # Filling in placeholders

An edit replaces the bytes at a position by as many others. Edits may come in
any order; they must lie inside the code and may not overlap.
-/

namespace GraphJit.Code

open X64

structure Edit where
  position : Nat
  bytes : List UInt8
deriving DecidableEq, Repr

/-- First position after the edited bytes. Positions are words of 64 bits. -/
def Edit.finish (edit : Edit) : Except Fault Nat :=
  let finish := edit.position + edit.bytes.length
  if finish < twoPow 64 then .ok finish else .error .sizeOverflow

/-- The edit that fills a jump's placeholder, which must have the right size. -/
def Jump.edit (jump : Jump) (offset : Int) : Outcome Edit := do
  let bytes ← jump.encode offset
  if bytes.length ≠ jump.size then
    .error (.error (.jumpSizeMismatch jump.position jump.size bytes.length))
  else return ⟨jump.position, bytes⟩

/-- Apply edits in ascending order to the code from `cursor` on. -/
def splice : Nat → List UInt8 → List Edit → Outcome (List UInt8)
  | _, rest, [] => .ok rest
  | cursor, rest, edit :: edits => do
      let finish ← edit.finish
      if edit.position < cursor ∨ cursor + rest.length < finish then
        .error (.error (.encoding (.misplacedEdit edit.position)))
      else
        let tail ← splice finish (rest.drop (finish - cursor)) edits
        return rest.take (edit.position - cursor) ++ edit.bytes ++ tail

/-- Fill in the far jumps and apply the patches. -/
def linearize (code : List UInt8) (jumps : List Jump) (resolution : Resolution)
    (patches : List Edit) : Outcome (List UInt8) := do
  if resolution.offsets.length ≠ jumps.length then
    .error (.error (.encoding (.offsetCount resolution.offsets.length jumps.length)))
  else
    let filled ← (jumps.zip resolution.offsets).mapM fun (jump, offset) => jump.edit offset
    let edits := (filled ++ patches).mergeSort fun a b => decide (a.position ≤ b.position)
    splice 0 code edits

end GraphJit.Code
