import StackFlow.FlowGraph.LoopExit

/-!
# Finalization of a control-flow graph

The last changes to a graph under construction: nodes with a true and a false branch become
conditions, markers become edges, and unreachable jumps are pruned.
-/

namespace StackFlow.Draft

def branchesBothWays (graph : Sketch Node BranchKind) (index : Nat) : Bool :=
  let kinds := (graph.outEdges index).map Edge.label
  kinds.contains .onTrue && kinds.contains .onFalse

def reclassify (draft : Draft) : Draft :=
  let conditions := draft.graph.indices.filter (branchesBothWays draft.graph)
  { draft with
    graph := conditions.foldl
      (fun graph index =>
        match graph.node? index with
        | some node => graph.setNode index { node with kind := .condition }
        | none => graph)
      draft.graph }

def redirectToExit (kind : BranchKind) (draft : Draft) (number : Nat) : Except Fault Draft :=
  draft.redirect number exitIndex kind fun jumps => jumps.filter fun jump => jump.target.isMarker

def applyMarker (options : Options) (number : Nat) (draft : Draft) :
    Marker → Except Fault Draft
  | .breaks => draft.resolve options .breaks number
  | .continues => draft.resolve options .continues number
  | .returns => draft.redirectToExit .onReturn number
  | .raises => draft.redirectToExit .onException number

def markerOrder : List Marker :=
  [.breaks, .continues, .returns, .raises]

def finalizeBlock (options : Options) (draft : Draft) (number : Nat) : Except Fault Draft := do
  let block ← Fault.fetch draft.blocks number
  (markerOrder.filter block.hasMarker).foldlM (applyMarker options number) draft

def unreachableJumps (draft : Draft) : List Nat :=
  (draft.blocks.zipIdx.filter fun (block, number) =>
    draft.graph.contains (blockIndex number) &&
      draft.graph.inDegree (blockIndex number) == 0 &&
      block.first?.any fun instr => instr.op.isJump).map
    fun (_, number) => blockIndex number

def prune (draft : Draft) : Draft :=
  { draft with graph := draft.unreachableJumps.foldl Sketch.removeNode draft.graph }

def finalize (options : Options) (draft : Draft) : Except Fault Draft := do
  let resolved ← (List.range draft.blocks.length).foldlM (finalizeBlock options) draft.reclassify
  return if options.pruneJumps then resolved.prune else resolved

end StackFlow.Draft
