import GraphJit.Host.Register
import GraphJit.Text.Numeral
import GraphJit.X64.Decode

/-! # Instruction text

Mnemonics with the destination first. Registers imply the operand width, so
memory operands carry none. Numbers above nine are hexadecimal with a mark at
the end, and start with a digit. A listing has one line for each instruction: its
offset, its bytes, and its text.
-/

namespace GraphJit.X64

/-- Upper case hexadecimal digits, at least as many as asked for. -/
def upperHex (places value : Nat) : String :=
  String.ofList ((Text.hexPadded places value).toList.map Char.toUpper)

def numberText (value : Nat) : String :=
  if value < 10 then toString value
  else
    let digits := upperHex 1 value
    let lead := if (digits.toList.head?.map Char.isDigit).getD true then "" else "0"
    lead ++ digits ++ "h"

def Gpr.text64 (register : Gpr) : String :=
  (HostRegister.gp register.index).text

/-- The name of the low half. -/
def Gpr.text32 (register : Gpr) : String :=
  if register.index.val < 8 then "e" ++ String.ofList (register.text64.toList.drop 1)
  else register.text64 ++ "d"

/-- The name of the low byte. -/
def Gpr.text8 (register : Gpr) : String :=
  if register.index.val < 4 then String.ofList ((register.text64.toList.drop 1).take 1) ++ "l"
  else if register.index.val < 8 then String.ofList (register.text64.toList.drop 1) ++ "l"
  else register.text64 ++ "b"

def Gpr.text (width : Width) (register : Gpr) : String :=
  match width with
  | .w32 => register.text32
  | .w64 => register.text64

def Xmm.text (register : Xmm) : String :=
  (HostRegister.xmm register.index).text

def Address.text (address : Address) : String :=
  let value := address.displacement.toInt
  let displacement :=
    if value = 0 then ""
    else if value < 0 then "-" ++ numberText value.natAbs
    else "+" ++ numberText value.natAbs
  "[" ++ address.base.text64 ++ displacement ++ "]"

/-- An immediate, extended to the width of its operation. -/
def immediateText (width : Width) (value : BitVec 32) : String :=
  match width with
  | .w32 => numberText value.toNat
  | .w64 => numberText (value.signExtend 64).toNat

def AluOp.mnemonic : AluOp → String
  | add => "add"
  | sub => "sub"
  | and => "and"
  | or => "or"
  | xor => "xor"
  | cmp => "cmp"
  | test => "test"

def ByteOp.mnemonic : ByteOp → String
  | and => "and"
  | or => "or"

def ShiftOp.mnemonic : ShiftOp → String
  | shl => "shl"
  | sar => "sar"
  | shr => "shr"

def UnaryOp.mnemonic : UnaryOp → String
  | not => "not"
  | neg => "neg"
  | idiv => "idiv"
  | div => "div"

def FloatOp.mnemonic : FloatOp → String
  | add => "add"
  | sub => "sub"
  | mul => "mul"
  | div => "div"

/-- Ending of the scalar instructions on a float width. -/
def Width.scalarSuffix : Width → String
  | .w32 => "ss"
  | .w64 => "sd"

/-- A mnemonic with its operands. -/
def operationText (mnemonic : String) (operands : List String) : String :=
  mnemonic ++ " " ++ String.intercalate "," operands

/-- A vector instruction: the extended set marks its mnemonics, and repeats the destination
where it is a source as well. -/
def vectorText (avx combines : Bool) (mnemonic dst : String) (operands : List String) : String :=
  if avx then
    operationText ("v" ++ mnemonic) (dst :: (if combines then [dst] else []) ++ operands)
  else operationText mnemonic (dst :: operands)

/-- A branch, with the address it goes to; one of two bytes is marked. -/
def branchText (mnemonic : String) (position length : Nat) (offset : BitVec 32) : String :=
  let target := BitVec.ofNat 64 (position + length) + offset.signExtend 64
  mnemonic ++ (if length = 2 then " short " else " ") ++ upperHex 16 target.toNat ++ "h"

/-- The text of an instruction at a position, with its length in bytes. -/
def Instr.text (avx : Bool) (position length : Nat) : Instr → String
  | mov width dst src => operationText "mov" [dst.text width, src.text width]
  | movImm32 dst value => operationText "mov" [dst.text32, numberText value.toNat]
  | movImm64 dst value => operationText "mov" [dst.text64, numberText value.toNat]
  | load width dst source => operationText "mov" [dst.text width, source.text]
  | store width target src => operationText "mov" [target.text, src.text width]
  | alu op width dst src => operationText op.mnemonic [dst.text width, src.text width]
  | aluImm op width dst value =>
    operationText op.mnemonic [dst.text width, immediateText width value]
  | imul width dst src => operationText "imul" [dst.text width, src.text width]
  | shift op width dst => operationText op.mnemonic [dst.text width, "cl"]
  | unary op width register => operationText op.mnemonic [register.text width]
  | signExtendAccumulator .w32 => "cdq"
  | signExtendAccumulator .w64 => "cqo"
  | setcc condition dst => operationText ("set" ++ condition.suffix) [dst.text8]
  | alu8 op dst src => operationText op.mnemonic [dst.text8, src.text8]
  | movzx8 dst src => operationText "movzx" [dst.text32, src.text8]
  | movsxd dst src => operationText "movsxd" [dst.text64, src.text32]
  | push register => operationText "push" [register.text64]
  | pop register => operationText "pop" [register.text64]
  | callReg register => operationText "call" [register.text64]
  | ret => "ret"
  | fpMov dst src => vectorText avx false "movaps" dst.text [src.text]
  | fpXor dst src => vectorText avx true "xorps" dst.text [src.text]
  | fpLoad width dst source =>
    vectorText avx false ("mov" ++ width.scalarSuffix) dst.text [source.text]
  | fpStore width target src =>
    vectorText avx false ("mov" ++ width.scalarSuffix) target.text [src.text]
  | fpBinary op width dst src =>
    vectorText avx true (op.mnemonic ++ width.scalarSuffix) dst.text [src.text]
  | fpCompare width a b => vectorText avx false ("ucomi" ++ width.scalarSuffix) a.text [b.text]
  | movToXmm .w32 dst src => vectorText avx false "movd" dst.text [src.text32]
  | movToXmm .w64 dst src => vectorText avx false "movq" dst.text [src.text64]
  | cvtIntToFp int float dst src =>
    vectorText avx true ("cvtsi2" ++ float.scalarSuffix) dst.text [src.text int]
  | cvtFpToInt int float dst src =>
    vectorText avx false ("cvtt" ++ float.scalarSuffix ++ "2si") (dst.text int) [src.text]
  | cvtFpToFp .w32 dst src => vectorText avx true "cvtsd2ss" dst.text [src.text]
  | cvtFpToFp .w64 dst src => vectorText avx true "cvtss2sd" dst.text [src.text]
  | saveXmm target src => vectorText avx false "movdqu" target.text [src.text]
  | restoreXmm dst source => vectorText avx false "movdqu" dst.text [source.text]
  | jmp offset => branchText "jmp" position length offset
  | jcc condition offset => branchText ("j" ++ condition.suffix) position length offset

/-- Columns for the bytes of an instruction. -/
def byteColumns : Nat := 24

def listingLine (position : Nat) (bytes : List UInt8) (text : String) : String :=
  let digits := Text.hexBytes bytes
  let padding := "".pushn ' ' (byteColumns - digits.length)
  Text.hexPadded 4 position ++ "  " ++ digits ++ padding ++ " " ++ text

/-- The first instruction as a line, with its length. A byte that starts none stands alone. -/
def firstLine (position : Nat) (code : List UInt8) : String × Nat :=
  match readInstr.run code with
  | some ((avx, instr), rest) =>
    let length := code.length - rest.length
    (listingLine position (code.take length) (instr.text avx position length), length)
  | none => (listingLine position (code.take 1) "(bad)", 1)

/-- The lines of code that starts at a position. -/
def listing (position : Nat) (code : List UInt8) : List String :=
  match code with
  | [] => []
  | first :: rest =>
    let (line, length) := firstLine position (first :: rest)
    line :: listing (position + max length 1) (rest.drop (length - 1))
termination_by code.length
decreasing_by
  rw [List.length_drop, List.length_cons]
  omega

end GraphJit.X64
