import GraphJit.CommandLine.FileTree
import GraphJit.Main
import GraphJit.Proofs.ArgumentPassing
import GraphJit.Proofs.AssembledCalls
import GraphJit.Proofs.ExactDominators
import GraphJit.Proofs.FrameGeometry
import GraphJit.Proofs.IteratedFrontiers
import GraphJit.Proofs.LinearCode
import GraphJit.Proofs.PhiElimination
import GraphJit.Proofs.ReachablePart
import GraphJit.Proofs.RegisterOwners
import GraphJit.Proofs.RegisterPressure
import GraphJit.Proofs.SessionBooks
import GraphJit.Proofs.TypedLocals
import GraphJit.Proofs.VerifiedGraphs
