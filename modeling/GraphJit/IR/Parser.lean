import GraphJit.Decimal.Read
import GraphJit.IR.Graph

/-! # Reading program text

The text is read line by line. A `#` starts a comment. A line `block n -> a, b`
opens the next block and lists its successors; every other line holds one
operation of the open block. Edges are added after the last line, so a
successor may be declared later.
-/

namespace GraphJit

open GraphJit.Decimal GraphJit.Text

/-- Why a line was refused. -/
inductive ParseCause where
  | operationOutsideBlock
  | unexpectedBlock (expected found : Nat)
  | tooManySuccessors
  | missingSuccessor (target : Nat)
  | invalidIndex (text : String)
  | unknownCondition (text : String)
  | needsCondition (mnemonic : String)
  | takesNoCondition (mnemonic : String)
  | invalidArgumentIndex (text : String)
  | unknownInstruction (mnemonic : String)
  | phiWithoutDestination
  | inputWithoutBlock (text : String)
  | operandWithoutType (text : String)
  | unknownType (text : String)
  | conflictingLocal (id : Nat)
  | invalidConstant (text : String)
deriving DecidableEq, Repr

def ParseCause.message : ParseCause → String
  | operationOutsideBlock => "operation outside of a block"
  | unexpectedBlock expected found =>
    "expected block " ++ toString expected ++ ", found block " ++ toString found
  | tooManySuccessors => "a block has at most two successors"
  | missingSuccessor target => "successor " ++ toString target ++ " does not exist"
  | invalidIndex text => "invalid index '" ++ text ++ "'"
  | unknownCondition text => "unknown condition '" ++ text ++ "'"
  | needsCondition mnemonic => "'" ++ mnemonic ++ "' needs a condition suffix"
  | takesNoCondition mnemonic => "'" ++ mnemonic ++ "' takes no condition"
  | invalidArgumentIndex text => "invalid argument index '" ++ text ++ "'"
  | unknownInstruction mnemonic => "unknown instruction '" ++ mnemonic ++ "'"
  | phiWithoutDestination => "phi needs a destination"
  | inputWithoutBlock text => "phi input '" ++ text ++ "' lacks @block"
  | operandWithoutType text => "operand '" ++ text ++ "' lacks a type"
  | unknownType text => "unknown type '" ++ text ++ "'"
  | conflictingLocal id => "local l" ++ toString id ++ " used with conflicting types"
  | invalidConstant text => "invalid constant '" ++ text ++ "'"

/-- A refused line and the cause. Lines are counted from one. -/
structure ParseError where
  line : Nat
  cause : ParseCause
deriving DecidableEq, Repr

def ParseError.message (error : ParseError) : String :=
  "line " ++ toString error.line ++ ": " ++ error.cause.message

namespace Parser

/-- Reading operands declares the locals that occur in them. -/
abbrev Reader := StateT LocalTable (Except ParseCause)

/-- The bits of a constant of the given type. A numeral marked `0x` gives them directly. -/
def constant? (text : List Char) (type : ValueType) : Option (BitVec 64) :=
  match after? "0x".toList text with
  | some digits =>
    (unsigned? 16 (twoPow 64) digits).map fun bits =>
      if type.size = 4 then ((BitVec.ofNat 64 bits).setWidth 32).setWidth 64
      else BitVec.ofNat 64 bits
  | none =>
    match type with
    | .i32 => (signed? 64 text).map fun value => (BitVec.ofInt 32 value).setWidth 64
    | .i64 => (signed? 64 text).map fun value => BitVec.ofInt 64 value
    | .f32 => (BinaryFormat.binary32.read? text).map fun bits => BitVec.ofNat 64 bits
    | .f64 => (BinaryFormat.binary64.read? text).map fun bits => BitVec.ofNat 64 bits

/-- The number after a register or local letter. -/
def numbered? (letter : Char) : List Char → Option Nat
  | [] => none
  | c :: digits =>
    if c == letter && !digits.isEmpty && digits.all isDigit then unsigned? 10 (twoPow 32) digits
    else none

def operand (text : List Char) : Reader Operand := do
  let some (head, typeName) := cutLast? ':' text
    | throw (.operandWithoutType (String.ofList text))
  let some type := ValueType.ofName? (String.ofList typeName)
    | throw (.unknownType (String.ofList typeName))
  if let some index := numbered? 'r' head then
    return .register ⟨.integer, index⟩ type
  if let some index := numbered? 'v' head then
    return .register ⟨.vector, index⟩ type
  if let some id := numbered? 'l' head then
    let (table, agrees) := (← get).declare id type
    set table
    if agrees then return .localVar id type
    throw (.conflictingLocal id)
  match constant? head type with
  | some bits => return .constant bits type
  | none => throw (.invalidConstant (String.ofList head))

def index (text : List Char) : Except ParseCause Nat :=
  match unsigned? 10 (twoPow 64) text with
  | some value => .ok value
  | none => .error (.invalidIndex (String.ofList text))

/-- The arguments between commas, trimmed; empty ones do not count. -/
def arguments (text : List Char) : List (List Char) :=
  ((pieces ',' text).map trim).filter (!·.isEmpty)

/-- The instruction of a mnemonic. The index of an argument load stands in `args`. -/
def instruction (mnemonic args : List Char) : Except ParseCause Instruction := do
  match cut? (· == '.') mnemonic with
  | some (base, suffix) =>
    let some comparison := Comparison.ofName? (String.ofList suffix)
      | throw (.unknownCondition (String.ofList suffix))
    match String.ofList base with
    | "cmp" => return .compare comparison
    | "br_if" => return .branchIf comparison
    | other => throw (.takesNoCondition other)
  | none =>
    match String.ofList mnemonic with
    | "cmp" => throw (.needsCondition "cmp")
    | "br_if" => throw (.needsCondition "br_if")
    | "load_arg" =>
      match unsigned? 10 (twoPow 32) args with
      | some index => return .loadArgument index
      | none => throw (.invalidArgumentIndex (String.ofList args))
    | other =>
      match Instruction.ofMnemonic? other with
      | some instruction => return instruction
      | none => throw (.unknownInstruction other)

/-- A phi input `value @block`. The block is read first. -/
def input (text : List Char) : Reader (Nat × Operand) := do
  let some (value, label) := cut? (· == '@') text
    | throw (.inputWithoutBlock (String.ofList text))
  let block ← index (trim label)
  return (block, ← operand (trim value))

/-- A destination, if the line has an equals sign, and the text after it. -/
def destination (text : List Char) : Reader (Option Operand × List Char) := do
  match cut? (· == '=') text with
  | some (target, rest) => return (some (← operand (trim target)), trim rest)
  | none => return (none, text)

def operation (text : List Char) : Reader Operation := do
  let (target, rest) ← destination text
  let (mnemonic, args) :=
    match cut? isBlank rest with
    | some (mnemonic, args) => (mnemonic, trim args)
    | none => (rest, [])
  match ← instruction mnemonic args with
  | .loadArgument index =>
    return { instruction := .loadArgument index, destination := target }
  | .phi =>
    let some target := target | throw .phiWithoutDestination
    return .phi target (← (arguments args).mapM input)
  | instruction =>
    return { instruction, destination := target, sources := ← (arguments args).mapM operand }

/-- The index of a block header and its successors. -/
def header (text : List Char) : Except ParseCause (Nat × List Nat) := do
  let (head, successors) :=
    match cutArrow? text with
    | some (head, list) => (head, pieces ',' list)
    | none => (text, [])
  let block ← index (trim head)
  let successors ← successors.mapM fun piece => index (trim piece)
  if 2 < successors.length then throw .tooManySuccessors
  return (block, successors)

/-- What has been read so far: the blocks without edges, and the edges still to add. -/
structure Draft where
  graph : Graph := {}
  /-- Line, source and targets of each block header. -/
  edges : List (Nat × Nat × List Nat) := []
deriving Repr

/-- Add an operation to the block that was opened last. -/
def Draft.push (draft : Draft) (text : List Char) : Except ParseCause Draft := do
  if draft.graph.size = 0 then throw .operationOutsideBlock
  let (op, locals) ← (operation text).run draft.graph.locals
  let blocks := draft.graph.blocks.modify (draft.graph.size - 1) fun block => block.push op
  return { draft with graph := { blocks, locals } }

/-- Open the next block. -/
def Draft.openBlock (draft : Draft) (line : Nat) (text : List Char) : Except ParseCause Draft := do
  let (block, successors) ← header text
  if block ≠ draft.graph.size then throw (.unexpectedBlock draft.graph.size block)
  return {
    graph := draft.graph.addBlock
    edges := draft.edges ++ [(line, block, successors)] }

/-- The content of a line: what stands before a comment, trimmed. -/
def content (line : List Char) : List Char :=
  trim (line.takeWhile (· != '#'))

def Draft.readLine (draft : Draft) (line : Nat) (raw : List Char) : Except ParseCause Draft :=
  let text := content raw
  if text.isEmpty then .ok draft
  else
    match after? "block ".toList text with
    | some header => draft.openBlock line header
    | none => draft.push text

/-- Attach the line number to a cause. -/
def atLine {α : Type} (line : Nat) (result : Except ParseCause α) : Except ParseError α :=
  result.mapError fun cause => ⟨line, cause⟩

def readLines (draft : Draft) : List (List Char × Nat) → Except ParseError Draft
  | [] => .ok draft
  | (raw, number) :: rest => do
      let draft ← atLine number (draft.readLine number raw)
      readLines draft rest

/-- Add an edge to a block that must exist. -/
def addEdge (graph : Graph) (line source target : Nat) : Except ParseError Graph :=
  match graph.addEdge source target with
  | .ok graph => .ok graph
  | .error _ => .error ⟨line, .missingSuccessor target⟩

/-- Add the edges of the block headers in order. -/
def addEdges (graph : Graph) (edges : List (Nat × Nat × List Nat)) : Except ParseError Graph :=
  edges.foldlM (fun graph (line, source, targets) =>
    targets.foldlM (fun graph target => addEdge graph line source target) graph) graph

end Parser

/-- Read a graph from its program text. -/
def Graph.parse (text : String) : Except ParseError Graph := do
  let draft ← Parser.readLines {} ((lines text.toList).zipIdx 1)
  Parser.addEdges draft.graph draft.edges

end GraphJit
