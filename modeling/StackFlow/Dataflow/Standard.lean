import StackFlow.Dataflow.Solver
import StackFlow.FlowGraph.Basic

/-!
# Standard analyses of a control-flow graph

`FlowGraph.analysis` makes an analysis of a lattice and a transfer function.  Four of them are given
here, over numbers, sets of names and lists of nodes.
-/

namespace StackFlow

def FlowGraph.analysis {σ : Type} (flow : FlowGraph) (lattice : Lattice σ)
    (transfer : Fin flow.size → σ → σ) : Analysis flow.size Node BranchKind σ :=
  { graph := flow.graph, entry := flow.entry, exit := flow.exit, lattice, transfer }

def Lattice.names : Lattice (SortedSet String) :=
  ⟨∅, (· ∪ ·)⟩

def countLimit : Nat := 18446744073709551616

def FlowGraph.counter (flow : FlowGraph) : Analysis flow.size Node BranchKind Nat :=
  { flow.analysis ⟨0, max⟩ fun _ count => count + 1 with
    fits := fun count => count < countLimit }

def FlowGraph.reads (flow : FlowGraph) : Analysis flow.size Node BranchKind (SortedSet String) :=
  flow.analysis .names fun node names =>
    names.insertAll ((flow.statementsOf node).flatMap fun statement => statement.loads)

def Statement.liveBefore (statement : Statement) (live : SortedSet String) : SortedSet String :=
  (live.filter fun name => !statement.stores.contains name).insertAll statement.uses

def FlowGraph.live (flow : FlowGraph) : Analysis flow.size Node BranchKind (SortedSet String) :=
  flow.analysis .names fun node live =>
    (flow.statementsOf node).foldr Statement.liveBefore live

/-- The nodes on the way in the order in which they were first joined.  Its join is not
commutative, so it shows the order of joins. -/
def FlowGraph.trail (flow : FlowGraph) : Analysis flow.size Node BranchKind (List Nat) :=
  let join (first second : List Nat) : List Nat :=
    second.foldl (fun trail node => if node ∈ trail then trail else trail ++ [node]) first
  flow.analysis ⟨[], join⟩ fun node trail => join trail [node.val]

end StackFlow
