import StackFlow.Block.Partition
import StackFlow.ControlDependence
import StackFlow.FlowGraph.Finalization
import StackFlow.Statement

/-!
# Control-flow graph of a scope

Beside its nodes and edges, a control-flow graph holds the blocks, the statements recovered from
them, the issues found, and the warnings given while it was built.
-/

namespace StackFlow

structure FlowGraph where
  scope : Nat
  name : String
  blocks : List Block
  statements : List (List Statement)
  frozen : Frozen Node BranchKind
  entry : Fin frozen.size
  exit : Fin frozen.size
  issues : List Issue
  warnings : List Warning

namespace FlowGraph

/-- The statements of a block that leave values on the stack.  The last statement is exempt where
the last instruction hands its operands to the code that follows. -/
def unbalanced (number : Nat) (block : Block) (statements : List Statement) : List Issue :=
  let exempt := if block.last?.any fun instr => instr.op.handsOperands then 1 else 0
  ((statements.take (statements.length - exempt)).filter fun statement => !statement.balanced).map
    fun statement => .unbalancedStatement number statement.start statement.depth

def build (scope : Scope) (options : Options) : Except Fault FlowGraph := do
  let blocks ← scope.checkedBlocks
  let wired ← (Draft.ofBlocks scope.endAddress blocks).wire
  let draft ← wired.finalize options
  let frozen ← draft.graph.freeze
  let statements ← draft.blocks.mapM Block.checkedStatements
  let entry ← Fault.require (frozen.node? Draft.entryIndex)
  let exit ← Fault.require (frozen.node? Draft.exitIndex)
  return {
    scope := scope.id
    name := scope.name
    blocks := draft.blocks
    statements
    frozen
    entry
    exit
    issues := draft.issues ++
      ((draft.blocks.zip statements).mapIdx fun number (block, statements) =>
        unbalanced number block statements).flatten
    warnings := scope.ignoredLeaders.map .ignoredBoundary ++ draft.issues.map .issue }

abbrev size (flow : FlowGraph) : Nat :=
  flow.frozen.size

def graph (flow : FlowGraph) : Digraph flow.size Node BranchKind :=
  flow.frozen.graph

def nodeOf? (flow : FlowGraph) (block : Nat) : Option (Fin flow.size) :=
  flow.frozen.node? (Draft.blockIndex block)

def blockOf? (flow : FlowGraph) (node : Fin flow.size) : Option Nat :=
  Draft.blockOfIndex? (flow.frozen.indices.get node)

def blockAt? (flow : FlowGraph) (address : Nat) : Option Nat := do
  let (block, number) ← (flow.blocks.zipIdx.filter fun (block, _) => block.start ≤ address).getLast?
  if block.contains address then some number else none

def statementsOf (flow : FlowGraph) (node : Fin flow.size) : List Statement :=
  match flow.blockOf? node with
  | some block => flow.statements[block]?.getD []
  | none => []

def nodesOfKind (flow : FlowGraph) (kind : NodeKind) : List (Fin flow.size) :=
  (List.finRange flow.size).filter fun node => (flow.graph.label node).kind == kind

def dominators (flow : FlowGraph) : Dominators flow.size :=
  .compute flow.graph flow.entry flow.exit

def controlDependence (flow : FlowGraph) : ControlDependence flow.size :=
  .ofDominators flow.dominators

def nodeText (flow : FlowGraph) (node : Fin flow.size) : String :=
  let label := flow.graph.label node
  match label.block.bind fun number => flow.blocks[number]? with
  | some block => s!"{label.kind.text} [{block.start}, {block.endAddress})"
  | none => label.kind.text

end FlowGraph

end StackFlow
