import StackFlow.Assembler
import StackFlow.Dot
import StackFlow.Options.Toml
import StackFlow.Pipeline.Basic
import StackFlow.Proofs.Chains
import StackFlow.Proofs.Dominance
import StackFlow.Proofs.Transfers
import StackFlow.Proofs.Solutions
import StackFlow.Proofs.Coverage
import StackFlow.Proofs.JumpSets
import StackFlow.Proofs.Frontier
import StackFlow.Proofs.ControlDependence
import StackFlow.Proofs.Convergence
import StackFlow.Proofs.Shape
import StackFlow.Proofs.ReachingLattice
import StackFlow.Proofs.Reachability
import StackFlow.Proofs.EnclosingLoop
import StackFlow.Proofs.Leaders
import StackFlow.Proofs.ExtendedArguments
import StackFlow.Proofs.LoopExits
import StackFlow.Proofs.Continues
import StackFlow.Proofs.ImmediateDominators
import StackFlow.Proofs.Streams
import StackFlow.Proofs.BlockStack
import StackFlow.Proofs.Breaks
import StackFlow.Proofs.Edits
import StackFlow.Proofs.Success
import StackFlow.Proofs.Guarded
import StackFlow.Proofs.Pruning
import StackFlow.Proofs.NamePaths
import StackFlow.Proofs.Isolation
import StackFlow.Proofs.Conditions
import StackFlow.Proofs.JumpIssues
import StackFlow.Proofs.Assembly
import StackFlow.Proofs.Segments
import StackFlow.Proofs.LocalLinks
import StackFlow.Proofs.DominatorLoops
import StackFlow.Proofs.Entry
import StackFlow.Proofs.BreadthFirst
import StackFlow.Proofs.StackDepth
