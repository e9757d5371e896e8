import StackFlow.Block.Loop
import StackFlow.FlowGraph.Issue
import StackFlow.FlowGraph.Node
import StackFlow.Graph.Sketch

/-!
# Control-flow graphs under construction

The entry and the exit have the first two indices, the blocks follow in their order.  Wiring joins
the entry to the first block, the last block to the exit, and every block to the blocks at the
addresses to which it jumps.
-/

namespace StackFlow

structure Draft where
  endAddress : Nat
  blocks : List Block
  graph : Sketch Node BranchKind
  issues : List Issue := []
  deriving DecidableEq

namespace Draft

def entryIndex : Nat := 0

def exitIndex : Nat := 1

def blockIndex (block : Nat) : Nat := block + 2

def blockOfIndex? : Nat → Option Nat
  | 0 | 1 => none
  | block + 2 => some block

@[simp] theorem blockOfIndex?_blockIndex (block : Nat) :
    blockOfIndex? (blockIndex block) = some block := rfl

def nodes (blocks : List Block) : List Node :=
  ⟨.entry, none⟩ :: ⟨.implicitReturn, none⟩ ::
    blocks.mapIdx fun number block => ⟨.ofBlock block.kind, some number⟩

def ofBlocks (endAddress : Nat) (blocks : List Block) : Draft :=
  { endAddress, blocks, graph := { slots := (nodes blocks).map some } }

/-- The node that control reaches at an address: the exit at the end of the scope, else the block
that starts there. -/
def nodeAt? (draft : Draft) (address : Nat) : Option Nat :=
  if address = draft.endAddress then
    some exitIndex
  else
    (Block.startingAt? draft.blocks address).map blockIndex

def outerEdges (draft : Draft) : List (Edge Nat BranchKind) :=
  match draft.blocks.length with
  | 0 => [⟨entryIndex, exitIndex, .always⟩]
  | last + 1 => [⟨entryIndex, blockIndex 0, .always⟩, ⟨blockIndex last, exitIndex, .always⟩]

def jumpEdges (draft : Draft) (number : Nat) (block : Block) : List (Edge Nat BranchKind) :=
  block.addressJumps.filterMap fun (target, kind) =>
    (draft.nodeAt? target).map (⟨blockIndex number, ·, kind⟩)

def jumpIssues (draft : Draft) (number : Nat) (block : Block) : List Issue :=
  block.undecodable.map (.undecodableJump number) ++
    (block.addressJumps.filter fun (target, _) => (draft.nodeAt? target).isNone).map
      fun (target, _) => .unknownJumpTarget number target

def wire (draft : Draft) : Except Fault Draft := do
  let numbered := draft.blocks.zipIdx
  let graph ← draft.graph.addEdges <|
    draft.outerEdges ++ numbered.flatMap fun (block, number) => draft.jumpEdges number block
  return { draft with
    graph
    issues := draft.issues ++
      numbered.flatMap fun (block, number) => draft.jumpIssues number block }

def report (draft : Draft) (issue : Issue) : Draft :=
  { draft with issues := draft.issues ++ [issue] }

/-- The draft with another edge in place of all that leave a block, and with other jumps in the
block. -/
def redirect (draft : Draft) (number target : Nat) (kind : BranchKind)
    (jumps : SortedSet Jump → SortedSet Jump) : Except Fault Draft := do
  let graph ← (draft.graph.clearOut (blockIndex number)).addEdge (blockIndex number) target kind
  return { draft with
    graph
    blocks := draft.blocks.modify number fun block => { block with jumps := jumps block.jumps } }

end Draft

end StackFlow
