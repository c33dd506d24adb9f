import GraphJit.Decimal.Layout
import GraphJit.IR.Graph

/-! # Program text of graphs -/

namespace GraphJit

open GraphJit.Decimal

def RegisterKind.letter : RegisterKind → String
  | .integer => "r"
  | .vector => "v"

/-- A constant at its type, without the type's name. -/
def constantText (bits : BitVec 64) : ValueType → String
  | .i32 => toString (bits.setWidth 32).toInt
  | .i64 => toString bits.toInt
  | .f32 => BinaryFormat.binary32.write (bits.toNat % twoPow 32)
  | .f64 => BinaryFormat.binary64.write bits.toNat

def Operand.text : Operand → String
  | .constant bits type => constantText bits type ++ ":" ++ type.name
  | .register guest type => guest.kind.letter ++ toString guest.index ++ ":" ++ type.name
  | .localVar id type => "l" ++ toString id ++ ":" ++ type.name

/-- The mnemonic with its condition or argument index. -/
def Instruction.text : Instruction → String
  | .compare comparison => "cmp." ++ comparison.name
  | .branchIf comparison => "br_if." ++ comparison.name
  | .loadArgument index => "load_arg " ++ toString index
  | instruction => instruction.mnemonic

/-- Items separated by commas, with `lead` in front of the first one. -/
def listText (lead : String) : List String → String
  | [] => ""
  | items => lead ++ String.intercalate ", " items

/-- One phi input, a value and the block it comes from. -/
def inputText (input : Nat × Operand) : String :=
  input.2.text ++ " @" ++ toString input.1

def Operation.text (op : Operation) : String :=
  let destination :=
    match op.destination with
    | some operand => operand.text ++ " = "
    | none => ""
  let arguments := if op.isPhi then op.inputs.map inputText else op.sources.map Operand.text
  destination ++ op.instruction.text ++ listText " " arguments

/-- A header line with the successors, then one indented line for each operation. -/
def Block.text (block : Block) : String :=
  "block " ++ toString block.index ++ listText " -> " (block.successors.map toString) ++ "\n"
    ++ String.join (block.operations.map fun op => "  " ++ op.text ++ "\n")

def Graph.text (graph : Graph) : String :=
  String.join (graph.blocks.toList.map Block.text)

end GraphJit
