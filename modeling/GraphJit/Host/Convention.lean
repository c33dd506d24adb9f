import GraphJit.Host.RegisterSet
import GraphJit.IR.ValueType

/-! # Calling conventions

Where arguments and results are passed, which registers a function must
preserve, and which ones the allocator may use. The scratch registers and the
argument registers are never allocated.
-/

namespace GraphJit

inductive Convention where
  | sysv
  | win64
deriving DecidableEq, Repr

/-- Where an argument is passed. Stack offsets count from the stack pointer at the call. -/
inductive Place where
  | register (register : HostRegister)
  | stack (offset : Nat)
deriving DecidableEq, Repr

namespace Convention

open HostRegister

def name : Convention → String
  | sysv => "sysv"
  | win64 => "win64"

/-- General purpose registers for arguments, in order. -/
def gpArguments : Convention → List HostRegister
  | sysv => [rdi, rsi, rdx, rcx, r8, r9]
  | win64 => [rcx, rdx, r8, r9]

/-- Vector registers for arguments, in order. -/
def vecArguments : Convention → List HostRegister
  | sysv => (List.range 8).map xmm
  | win64 => (List.range 4).map xmm

def argumentRegisters (convention : Convention) : RegisterSet :=
  .ofList (convention.gpArguments ++ convention.vecArguments)

/-- Registers that a function must leave as it found them. -/
def calleeSaved : Convention → RegisterSet
  | sysv => .ofList [rbx, rbp, r12, r13, r14, r15]
  | win64 =>
    .ofList ([rbx, rbp, rsi, rdi, r12, r13, r14, r15] ++ (List.range' 6 10).map xmm)

/-- Registers for locals of a function without calls. -/
def leafAllocatable : Convention → RegisterSet
  | sysv => .ofList ([rbx, rbp, r10, r11, r12, r13, r14, r15] ++ (List.range' 8 8).map xmm)
  | win64 =>
    .ofList ([rbx, rbp, rsi, rdi, r10, r11, r12, r13, r14, r15] ++ (List.range' 4 12).map xmm)

/-- Registers for locals. Across a call only those survive that the callee preserves. -/
def allocatable (convention : Convention) (hasCalls : Bool) : RegisterSet :=
  if hasCalls then convention.leafAllocatable.inter convention.calleeSaved
  else convention.leafAllocatable

/-- Each class of arguments takes the next of its registers; the rest go to the stack, one
after the other. -/
def placeByClass (gp vec : List HostRegister) (stack : Nat) : List ValueType → List Place
  | [] => []
  | type :: types =>
    if type.isInteger then
      match gp with
      | register :: gp => .register register :: placeByClass gp vec stack types
      | [] => .stack stack :: placeByClass [] vec (stack + 8) types
    else
      match vec with
      | register :: vec => .register register :: placeByClass gp vec stack types
      | [] => .stack stack :: placeByClass gp [] (stack + 8) types

/-- The position of an argument alone decides on its register or stack slot. -/
def placeByPosition (gp vec : List HostRegister) (types : List ValueType) : List Place :=
  types.zipIdx.map fun (type, position) =>
    match (if type.isInteger then gp else vec)[position]? with
    | some register => .register register
    | none => .stack (8 * position)

/-- Where the arguments of a signature are passed. -/
def places (convention : Convention) (types : List ValueType) : List Place :=
  match convention with
  | sysv => placeByClass convention.gpArguments convention.vecArguments 0 types
  | win64 => placeByPosition convention.gpArguments convention.vecArguments types

/-- Register of a returned value; both conventions agree on it. -/
def returnRegister (type : ValueType) : HostRegister :=
  if type.isInteger then rax else xmm0

end Convention

end GraphJit
