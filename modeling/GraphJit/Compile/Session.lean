import GraphJit.Compile.CodeCache
import GraphJit.Compile.Pipeline

/-! # Sessions

One compiler with its memory, and one cache. Each function is compiled, placed
in memory on pages of its own, and what was kept of it is put into the cache in any
case. Only the books of the memory are kept here: how many functions were placed,
their bytes, and the bytes of their pages.
-/

namespace GraphJit

open Validate (Signature)

/-- The books, which are words of 64 bits. -/
structure MappingStats where
  functions : Nat := 0
  codeBytes : Nat := 0
  mappedBytes : Nat := 0
deriving DecidableEq, Repr

def MappingStats.Fits (stats : MappingStats) : Prop :=
  stats.functions < twoPow 64 ∧ stats.codeBytes < twoPow 64 ∧ stats.mappedBytes < twoPow 64
deriving Decidable

def pageSize : Nat := 4096

/-- A length rounded up to whole pages. -/
def pageBytes (length : Nat) : Nat :=
  (length + pageSize - 1) / pageSize * pageSize

/-- Place code in memory. There must be some. -/
def MappingStats.map (stats : MappingStats) (code : List UInt8) : Outcome MappingStats :=
  let next : MappingStats := {
    functions := stats.functions + 1
    codeBytes := stats.codeBytes + code.length
    mappedBytes := stats.mappedBytes + pageBytes code.length }
  if code.isEmpty then .error (.error (.mapping .emptyCode))
  else if next.Fits then .ok next
  else .error (.fault .sizeOverflow)

structure Session where
  options : Options
  stats : MappingStats := {}
  cache : CodeCache := {}
deriving Repr

/-- What came of one function. -/
structure SessionReport where
  compiled : Traced CompiledFunction
  /-- Whether code was put into the cache. -/
  committed : Bool

/-- Place a compiled function in memory. Only success is reported as the end of the pass. -/
def MappingStats.mapTraced (stats : MappingStats) (function : CompiledFunction) :
    Traced (CompiledFunction × MappingStats) :=
  match stats.map function.code with
  | .ok stats => ⟨[.start .mapping, .finish .mapping none], .ok (function, stats)⟩
  | .error failure => ⟨[.start .mapping], .error failure⟩

/-- Compile one function. Its code is offered for keeping as soon as it is finished. -/
def Session.compile (session : Session) (address : BitVec 64) (signature : Signature)
    (graph : Graph) : Session × SessionReport :=
  let saved : SavedCode := { address }
  let compiled := graph.compileInto (fun function =>
    (function, saved.offer session.options.minSavedLength function.code)) session.options signature
  let mapped := compiled.andThen fun result => session.stats.mapTraced result.1
  let stats :=
    match mapped.outcome with
    | .ok (_, stats) => stats
    | .error _ => session.stats
  let (cache, committed) := session.cache.commit ((compiled.outcome.map (·.2)).toOption.getD saved)
  ({ session with stats, cache },
    { compiled := ⟨mapped.events, mapped.outcome.map (·.1)⟩, committed })

end GraphJit
