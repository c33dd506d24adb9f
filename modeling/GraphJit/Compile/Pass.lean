import GraphJit.Error

/-! # Passes and their events

Compilation reports the start and the end of every pass. The end of a pass that
transforms the graph carries the result.
-/

namespace GraphJit

inductive Pass where
  | dominance
  | ssaConstruction
  | registerToLocal
  | ssaDeconstruction
  | registerAllocation
  | codeGeneration
  | mapping
deriving DecidableEq, Repr

def Pass.name : Pass → String
  | dominance => "Dominance"
  | ssaConstruction => "SsaConstruction"
  | registerToLocal => "RegisterToLocal"
  | ssaDeconstruction => "SsaDeconstruction"
  | registerAllocation => "RegisterAllocation"
  | codeGeneration => "CodeGeneration"
  | mapping => "Mapping"

inductive Event where
  | start (pass : Pass)
  | finish (pass : Pass) (graph : Option Graph)
deriving DecidableEq, Repr

/-- The events of a computation, and how it ended. -/
structure Traced (α : Type) where
  events : List Event
  outcome : Outcome α

namespace Traced

/-- A computation without events. -/
def quiet {α : Type} (outcome : Outcome α) : Traced α :=
  ⟨[], outcome⟩

/-- Go on with a result. -/
def andThen {α β : Type} (first : Traced α) (next : α → Traced β) : Traced β :=
  match first.outcome with
  | .ok value => ⟨first.events ++ (next value).events, (next value).outcome⟩
  | .error failure => ⟨first.events, .error failure⟩

instance : Monad Traced where
  pure value := quiet (.ok value)
  bind := andThen

/-- How a pass ended: with or without a graph to show, or not at all after a fault. -/
def endEvent {α : Type} (pass : Pass) (shown : α → Option Graph) : Outcome α → List Event
  | .ok value => [.finish pass (shown value)]
  | .error (.error _) => [.finish pass none]
  | .error (.fault _) => []

/-- Run one pass between its events. -/
def pass {α : Type} (pass : Pass) (shown : α → Option Graph) (outcome : Outcome α) : Traced α :=
  ⟨.start pass :: endEvent pass shown outcome, outcome⟩

end Traced

end GraphJit
