import GraphJit.Host.Convention
import GraphJit.Word
import GraphJit.X64.Instr

/-! # Stack frames

From the incoming stack pointer downwards a frame holds the return address, the
pushed registers, the saved vector registers, the spilled locals, and the area
for outgoing arguments. Padding at the lower end keeps the stack pointer
aligned to sixteen bytes at every call.
-/

namespace GraphJit

open X64

structure Frame where
  /-- General purpose registers pushed on entry. -/
  intSaved : Mask := 0
  /-- Vector registers stored on entry. -/
  vecSaved : Mask := 0
  /-- Bytes for saved vector registers. -/
  xmmSave : Nat := 0
  /-- Bytes for spilled locals. -/
  spill : Nat := 0
  /-- Bytes for outgoing arguments and padding. -/
  callArgs : Nat := 0
deriving DecidableEq, Repr

namespace Frame

def wordBytes : Nat := 8
def vectorBytes : Nat := 16
def argumentBytes : Nat := 16
def returnAddressBytes : Nat := 8

/-- Argument slots that every calling function reserves. -/
def leastArguments : Nat := 4

/-- The frame of a function from the registers it writes, its spilled bytes, and the
largest argument count of its calls, if it has any. Counts are words of 32 bits. -/
def compute (convention : Convention) (intUsed vecUsed : Mask) (spill : Nat)
    (maxArguments : Option Nat) : Except Fault Frame := do
  let intSaved := convention.calleeSaved.gp &&& intUsed
  let vecSaved := convention.calleeSaved.vec &&& vecUsed
  let xmmSave := vecSaved.count * vectorBytes
  let saved := intSaved.count * wordBytes + xmmSave + returnAddressBytes
  let slots :=
    match maxArguments with
    | some count => max count leastArguments % twoPow 32
    | none => 0
  let fixed ← wordSize (saved + spill)
  let arguments ← wordSize (slots * argumentBytes)
  let used ← wordSize (fixed + arguments)
  let padded ← wordSize (used + 16)
  let total := (padded - 1) / 16 * 16
  return { intSaved, vecSaved, xmmSave, spill, callArgs := total - fixed }

def pushedCount (frame : Frame) : Nat :=
  frame.intSaved.count

/-- Bytes taken from the stack pointer after the pushes. -/
def reservedSize (frame : Frame) : Nat :=
  frame.callArgs + frame.spill + frame.xmmSave

/-- The whole frame with the return address. -/
def totalSize (frame : Frame) : Nat :=
  frame.pushedCount * wordBytes + frame.reservedSize + returnAddressBytes

/-- Displacement of a spill slot from the stack pointer. -/
def spillOffset (frame : Frame) (slot : Nat) : Except Fault (BitVec 32) :=
  return BitVec.ofNat 32 (← wordSize (frame.callArgs + slot))

/-- Displacement of a vector save slot from the stack pointer. -/
def saveOffset (frame : Frame) (index : Nat) : BitVec 32 :=
  BitVec.ofNat 32 (frame.callArgs + frame.spill + index * vectorBytes)

/-- Displacement of an incoming stack argument from the stack pointer, which has to be a
signed word of 32 bits. -/
def incomingOffset (frame : Frame) (offset : Nat) : Except Fault (BitVec 32) :=
  let value := (BitVec.ofNat 32 frame.totalSize).toInt + (BitVec.ofNat 32 offset).toInt
  if fitsSigned 32 value then .ok (BitVec.ofInt 32 value)
  else .error .sizeOverflow

end Frame

/-- The registers of a mask that exist, in ascending order. -/
def Mask.members (mask : Mask) : List (Fin 16) :=
  (List.finRange 16).filter fun index => mask.getLsbD index

namespace Frame

/-- Vector save slots with their registers. -/
def saveSlots (frame : Frame) : List (Xmm × Address) :=
  frame.vecSaved.members.zipIdx.map fun (index, slot) =>
    (⟨index⟩, ⟨Gpr.rsp, frame.saveOffset slot⟩)

/-- Move the stack pointer by the reserved bytes, if there are any. -/
def adjust (frame : Frame) (op : AluOp) : List Instr :=
  if frame.reservedSize = 0 then []
  else [.aluImm op .w64 Gpr.rsp (BitVec.ofNat 32 frame.reservedSize)]

/-- Push the saved registers, reserve the frame, and store the vector registers. -/
def prologue (frame : Frame) : List Instr :=
  frame.intSaved.members.map (fun index => .push ⟨index⟩) ++ frame.adjust .sub
    ++ frame.saveSlots.map fun slot => .saveXmm slot.2 slot.1

/-- Undo the prologue and return. -/
def epilogue (frame : Frame) : List Instr :=
  frame.saveSlots.map (fun slot => .restoreXmm slot.1 slot.2) ++ frame.adjust .add
    ++ frame.intSaved.members.reverse.map (fun index => .pop ⟨index⟩) ++ [.ret]

end Frame

end GraphJit
