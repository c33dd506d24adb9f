/-! # Words

Bounds of words of a given number of bits, and faults. A fault is a broken
precondition: the operation stops without a result, which is different from
rejecting its input with an error.
-/

namespace GraphJit

/-- The number of words of a width. -/
def twoPow (width : Nat) : Nat :=
  Nat.pow 2 width

/-- Whether a value is a signed word of a width. -/
def fitsSigned (width : Nat) (value : Int) : Bool :=
  decide (-(twoPow (width - 1) : Int) ≤ value ∧ value < (twoPow (width - 1) : Int))

/-- Why an operation had to stop. -/
inductive Fault where
  /-- A block, phi input or table entry that does not exist was asked for. -/
  | indexOutOfRange
  /-- A size or offset left the range of the machine word that holds it. -/
  | sizeOverflow
deriving DecidableEq, Repr

/-- A size that has to fit in a word of 32 bits. -/
def wordSize (value : Nat) : Except Fault Nat :=
  if value < twoPow 32 then .ok value else .error .sizeOverflow

end GraphJit
