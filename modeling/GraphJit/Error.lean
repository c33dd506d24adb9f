import GraphJit.Host.RegisterFile
import GraphJit.IR.Printer
import GraphJit.Text.Numeral

/-! # Errors

Every way in which a graph can be refused, or the machinery can find itself
inconsistent. Causes carry the data they speak about; the wording stands in one
`message` function for each family.
-/

namespace GraphJit

def GuestRegister.kindName (register : GuestRegister) : String :=
  match register.kind with
  | .integer => "Integer"
  | .vector => "Vector"

/-- The field form of a guest register. -/
def GuestRegister.record (register : GuestRegister) : String :=
  "Register \x7b index: " ++ toString register.index ++ ", kind: " ++ register.kindName ++ " \x7d"

/-- Constructs that cannot be compiled. -/
inductive Unsupported where
  | noBlocks
  | tooManySuccessors (block count : Nat)
  | missingTarget (block target : Nat)
  | misplacedTerminator (block : Nat) (op : Operation)
  | malformed (block : Nat) (op : Operation)
  | writesConstant (block : Nat) (op : Operation)
  | lateArgument (block : Nat) (op : Operation)
  | missingArgument (op : Operation) (count : Nat)
  | argumentMismatch (op : Operation) (type : ValueType)
  | callWithoutTarget (block : Nat)
  | returnMismatch (block : Nat) (op : Operation)
  | branchWithoutSuccessor (block : Nat)
  | conditionalSuccessors (block : Nat)
  | openEnded (block : Nat)
  | returnWithSuccessors (block : Nat)
  | entryHasPredecessors
  | mixedRegister (register : GuestRegister) (known used : ValueType)
  | emittedTwice (block : Nat)
  | missingDestination (op : Operation)
  | missingSource (op : Operation) (index : Nat)
  | floatType (op : Operation)
  | mixedTypes (op : Operation)
  | needsIntegerDestination (op : Operation)
  | needsFloatDestination (op : Operation)
  | needsFloatSource (op : Operation)
  | floatCondition (op : Operation)
  | lateArgumentLoad (block : Nat) (op : Operation)
  | phiInCode (block : Nat)
  | registerInCode (register : GuestRegister)
  | constantDestination
  | branchTarget (block : Nat) (taken : Bool)
deriving DecidableEq, Repr

/-- An operation as it is quoted in messages. -/
def Operation.quoted (op : Operation) : String :=
  "`" ++ op.text ++ "`"

namespace Unsupported

def blockName (block : Nat) : String :=
  "block " ++ toString block

def message : Unsupported → String
  | noBlocks => "function has no blocks"
  | tooManySuccessors block count =>
    blockName block ++ " has " ++ toString count ++ " successors"
  | missingTarget block target =>
    blockName block ++ " branches to missing block " ++ toString target
  | misplacedTerminator block op =>
    blockName block ++ ": " ++ op.quoted ++ " is not the last operation"
  | malformed block op => blockName block ++ ": malformed " ++ op.quoted
  | writesConstant block op => blockName block ++ ": " ++ op.quoted ++ " writes a constant"
  | lateArgument block op =>
    blockName block ++ ": " ++ op.quoted
      ++ " outside the leading argument loads of the entry block"
  | missingArgument op count =>
    op.quoted ++ " but the function has " ++ toString count ++ " arguments"
  | argumentMismatch op type => op.quoted ++ " does not match argument type " ++ type.name
  | callWithoutTarget block => blockName block ++ ": call without a target"
  | returnMismatch block op =>
    blockName block ++ ": " ++ op.quoted ++ " does not match the return type"
  | branchWithoutSuccessor block => blockName block ++ ": branch without a successor"
  | conditionalSuccessors block =>
    blockName block ++ ": conditional branch needs two successors"
  | openEnded block => blockName block ++ " has neither a terminator nor a successor"
  | returnWithSuccessors block => blockName block ++ " returns but has successors"
  | entryHasPredecessors => "entry block has predecessors"
  | mixedRegister register known used =>
    "guest register " ++ register.kindName ++ " " ++ toString register.index ++ " used as both "
      ++ known.name ++ " and " ++ used.name
  | emittedTwice block => blockName block ++ " emitted twice"
  | missingDestination op => op.quoted ++ " has no destination"
  | missingSource op index => op.quoted ++ " is missing source " ++ toString index
  | floatType op => op.quoted ++ " on a float type"
  | mixedTypes op => op.quoted ++ " mixes integer and float types"
  | needsIntegerDestination op => op.quoted ++ " needs an integer destination"
  | needsFloatDestination op => op.quoted ++ " needs a float destination"
  | needsFloatSource op => op.quoted ++ " needs a float source and integer destination"
  | floatCondition op => op.quoted ++ " has a float condition"
  | lateArgumentLoad block op =>
    op.quoted ++ " in " ++ blockName block
      ++ " outside the leading argument loads of the entry block"
  | phiInCode block => "phi in " ++ blockName block ++ " reached code generation"
  | registerInCode register =>
    "guest register " ++ register.record ++ " reached code generation"
  | constantDestination => "constant used as a destination"
  | branchTarget block taken =>
    blockName block ++ " branches without a " ++ (if taken then "taken" else "next")
      ++ " successor"

end Unsupported

/-- Breaches of static single assignment form. -/
inductive SsaViolation where
  | registerDefined (register block : Nat)
  | redefined (id : Nat)
  | inputCount (block inputs predecessors : Nat)
  | registerUsed (block : Nat)
  | neverDefined (id block : Nat)
  | notDominated (id block definition : Nat)
deriving DecidableEq, Repr

def SsaViolation.message : SsaViolation → String
  | registerDefined register block =>
    "guest register " ++ toString register ++ " still defined in block " ++ toString block
  | redefined id => "l" ++ toString id ++ " defined more than once"
  | inputCount block inputs predecessors =>
    "phi in block " ++ toString block ++ " has " ++ toString inputs ++ " inputs for "
      ++ toString predecessors ++ " predecessors"
  | registerUsed block => "guest register use in block " ++ toString block
  | neverDefined id block =>
    "l" ++ toString id ++ " used in block " ++ toString block ++ " but never defined"
  | notDominated id block definition =>
    "use of l" ++ toString id ++ " in block " ++ toString block
      ++ " is not dominated by its definition in block " ++ toString definition

/-- Locals that cannot be given a home, or have none. -/
inductive AllocationError where
  | untyped (id : Nat)
  | unplaced (id : Nat)
  | refused (id : Nat) (cause : RegisterFileError)
deriving DecidableEq, Repr

def AllocationError.message : AllocationError → String
  | untyped id => "l" ++ toString id ++ " has no type"
  | unplaced id => "l" ++ toString id ++ " has no location"
  | refused id cause => "l" ++ toString id ++ ": " ++ cause.message

/-- What an instruction needs in a register operand. -/
inductive RegisterClass where
  | general
  | word64
  | word32
  | byte
  | vector
  | xmm
deriving DecidableEq, Repr

def RegisterClass.name : RegisterClass → String
  | general => "general purpose"
  | word64 => "64-bit"
  | word32 => "32-bit"
  | byte => "8-bit"
  | vector => "vector"
  | xmm => "xmm"

/-- Instructions that have no encoding, and edits that do not fit the code. -/
inductive EncodingError where
  | notRegister (register : HostRegister) (expected : RegisterClass)
  | offsetRange (offset : Int)
  | offsetCount (offsets jumps : Nat)
  | misplacedEdit (position : Nat)
deriving DecidableEq, Repr

def EncodingError.message : EncodingError → String
  | notRegister register expected =>
    register.text ++ " is not a " ++ expected.name ++ " register"
  | offsetRange offset => "relative offset " ++ toString offset ++ " does not fit in 32 bits"
  | offsetCount offsets jumps =>
    toString offsets ++ " resolved offsets for " ++ toString jumps ++ " jumps"
  | misplacedEdit position =>
    "placeholder at " ++ Text.hex position ++ " overlaps another or runs past the code"

/-- Near jumps that are not opened and closed in turn. -/
inductive NearJumpMisuse where
  | alreadyOpen
  | notOpen
  | leftOpen
deriving DecidableEq, Repr

def NearJumpMisuse.message : NearJumpMisuse → String
  | alreadyOpen => "near jump opened while another is pending"
  | notOpen => "jump_here without a pending near jump"
  | leftOpen => "near jump still pending at end of function"

/-- Code that cannot be mapped into memory. -/
inductive MappingError where
  | emptyCode
deriving DecidableEq, Repr

def MappingError.message : MappingError → String
  | emptyCode => "cannot map empty code"

inductive CompileError where
  | nearJumpOutOfRange (position : Nat) (offset : Int) (expected actual : Nat)
  | nearJumpState (cause : NearJumpMisuse)
  | unresolvedBlock (block : Nat)
  | jumpSizeMismatch (position expected actual : Nat)
  | resolutionDiverged (iterations : Nat)
  | ssaViolation (cause : SsaViolation)
  | unsupported (cause : Unsupported)
  | allocation (cause : AllocationError)
  | encoding (cause : EncodingError)
  | mapping (cause : MappingError)
deriving DecidableEq, Repr

namespace CompileError

def message : CompileError → String
  | nearJumpOutOfRange position offset expected actual =>
    "Near jump at " ++ Text.hex position ++ " no longer fits: placeholder is "
      ++ toString expected ++ " bytes, offset " ++ toString offset ++ " needs "
      ++ toString actual
  | nearJumpState cause => "Near jump state error: " ++ cause.message
  | unresolvedBlock block =>
    "Jump to block " ++ toString block ++ " but the block was never emitted"
  | jumpSizeMismatch position expected actual =>
    "Jump at " ++ Text.hex position ++ " encoded to " ++ toString actual
      ++ " bytes, placeholder has " ++ toString expected
  | resolutionDiverged iterations =>
    "Jump offsets did not converge after " ++ toString iterations ++ " iterations"
  | ssaViolation cause => "SSA form violated: " ++ cause.message
  | unsupported cause => "Unsupported construct: " ++ cause.message
  | allocation cause => "Register allocation failed: " ++ cause.message
  | encoding cause => "Instruction encoding failed: " ++ cause.message
  | mapping cause => "Executable memory error: " ++ cause.message

/-- Name of the kind of error. -/
def kind : CompileError → String
  | nearJumpOutOfRange .. => "NearJumpOutOfRange"
  | nearJumpState _ => "NearJumpState"
  | unresolvedBlock _ => "UnresolvedBlockOffset"
  | jumpSizeMismatch .. => "JumpSizeMismatch"
  | resolutionDiverged _ => "JumpResolutionDiverged"
  | ssaViolation _ => "SsaViolation"
  | unsupported _ => "UnsupportedConstruct"
  | allocation _ => "RegisterAllocation"
  | encoding _ => "Encoding"
  | mapping _ => "ExecutableMemory"

/-- Whether the error shows an inconsistency of the compiler itself. -/
def isInternal : CompileError → Bool
  | nearJumpOutOfRange .. | nearJumpState _ | unresolvedBlock _ | jumpSizeMismatch ..
  | resolutionDiverged _ | ssaViolation _ => true
  | unsupported _ | allocation _ | encoding _ | mapping _ => false

end CompileError

/-- How a step can end without a result. -/
inductive Failure where
  | fault (cause : Fault)
  | error (cause : CompileError)
deriving DecidableEq, Repr

/-- A result, an error, or a fault. -/
abbrev Outcome := Except Failure

instance : MonadLift (Except Fault) Outcome where
  monadLift result := result.mapError .fault

instance : MonadLift (Except CompileError) Outcome where
  monadLift result := result.mapError .error

instance : MonadLift (Except EncodingError) Outcome where
  monadLift result := result.mapError fun cause => .error (.encoding cause)

/-- Stop because the construct cannot be compiled. -/
def unsupported {α : Type} (cause : Unsupported) : Outcome α :=
  .error (.error (.unsupported cause))

end GraphJit
