import GraphJit.Error
import GraphJit.Word
import GraphJit.X64.Condition

/-! # Encoding branches

A branch has a short form with an offset of one byte and a long form with four.
Offsets count from the end of the instruction.
-/

namespace GraphJit.X64

/-- The low `count` bytes of a word, least significant first. -/
def littleEndian {width : Nat} (word : BitVec width) : Nat → List UInt8
  | 0 => []
  | count + 1 => UInt8.ofBitVec (word.setWidth 8) :: littleEndian (word >>> 8) count

def byte (value : Nat) : UInt8 :=
  UInt8.ofNat value

/-- Whether an offset fits in a signed byte. -/
def fitsByte (offset : Int) : Bool :=
  fitsSigned 8 offset

/-- Whether an offset fits in a signed word of 32 bits. -/
def fitsWord (offset : Int) : Bool :=
  fitsSigned 32 offset

/-- Length of a jump in its shortest form. -/
def jmpLength (offset : Int) : Nat :=
  if fitsByte offset then 2 else 5

/-- Length of a conditional jump in its shortest form. -/
def jccLength (offset : Int) : Nat :=
  if fitsByte offset then 2 else 6

/-- An opcode and an offset of one byte. -/
def shortForm (opcode : Nat) (offset : Int) : List UInt8 :=
  [byte opcode, UInt8.ofBitVec (BitVec.ofInt 8 offset)]

/-- An opcode and an offset of four bytes, which has to fit. -/
def longForm (opcode : List UInt8) (offset : Int) : Except EncodingError (List UInt8) :=
  if fitsWord offset then .ok (opcode ++ littleEndian (BitVec.ofInt 32 offset) 4)
  else .error (.offsetRange offset)

/-- A jump in its long form. -/
def longJmp (offset : Int) : Except EncodingError (List UInt8) :=
  longForm [0xE9] offset

/-- A conditional jump in its long form. -/
def longJcc (condition : Condition) (offset : Int) : Except EncodingError (List UInt8) :=
  longForm [0x0F, byte (0x80 + condition.code)] offset

/-- A jump in its shortest form. -/
def shortestJmp (offset : Int) : Except EncodingError (List UInt8) :=
  if fitsByte offset then .ok (shortForm 0xEB offset) else longJmp offset

/-- A conditional jump in its shortest form. -/
def shortestJcc (condition : Condition) (offset : Int) : Except EncodingError (List UInt8) :=
  if fitsByte offset then .ok (shortForm (0x70 + condition.code) offset)
  else longJcc condition offset

end GraphJit.X64
