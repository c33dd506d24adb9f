import GraphJit.Compile.Pass
import GraphJit.Compile.Validate
import GraphJit.Dominance.Frontier
import GraphJit.IR.Prune
import GraphJit.Lowering.Function
import GraphJit.SSA.Deconstruct
import GraphJit.SSA.RegisterLocals
import GraphJit.SSA.Rename
import GraphJit.SSA.Verify

/-! # The compiler

A graph is checked, freed of unreachable blocks, brought into a form without
guest registers and phis, allocated, and lowered.
-/

namespace GraphJit

open Validate (Signature)

/-- Static single assignment form, checked. -/
def Graph.intoSsa (graph : Graph) : Outcome Graph := do
  let graph ← SSA.construct graph
  SSA.verify graph
  return graph

/-- Replace guest registers by locals, in the way that the options ask for. -/
def Graph.intoLocals (options : Options) (graph : Graph) : Traced Graph :=
  if options.ssa then .pass .ssaConstruction some graph.intoSsa
  else .pass .registerToLocal some (liftM graph.renameRegisters)

def Graph.withoutPhis (graph : Graph) : Outcome Graph := do
  return (← SSA.deconstruct graph).1

/-- A checked graph that has only reachable blocks. -/
def Graph.prepare (graph : Graph) (signature : Signature) : Outcome Graph := do
  graph.validate signature
  return (← graph.removeUnreachable).1

/-- Compile a graph to machine code, which is handed over when it is finished. -/
def Graph.compileInto {α : Type} (deliver : CompiledFunction → α) (options : Options)
    (signature : Signature) (graph : Graph) : Traced α := do
  let graph ← .quiet (graph.prepare signature)
  let graph ← .pass .dominance (fun _ => none) (liftM (Dominance.analyze graph))
  let graph ← graph.intoLocals options
  let graph ← .pass .ssaDeconstruction some graph.withoutPhis
  let allocation ← .pass .registerAllocation (fun _ => none)
    (Allocation.greedy none options.convention graph)
  .pass .codeGeneration (fun _ => none)
    ((graph.generate options allocation signature.arguments).map deliver)

def Graph.compile (options : Options) (signature : Signature) (graph : Graph) :
    Traced CompiledFunction :=
  graph.compileInto id options signature

end GraphJit
