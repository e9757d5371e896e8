import StackFlow.Dominance.Frontier
import StackFlow.FlowGraph.Draft
import StackFlow.Options.Basic

/-!
# Breaks and continues

A break or a continue leaves through the innermost loop around it: the loop setup with the greatest
address, among those from which the jump can be reached, whose region holds the jump.  A break goes
to the end of that region.  A continue goes to its encoded destination where a block of the region
starts there, else to the header of the loop.
-/

namespace StackFlow

inductive LoopExit where
  | breaks
  | continues
  deriving DecidableEq, Repr

namespace LoopExit

def marker : LoopExit → Marker
  | breaks => .breaks
  | continues => .continues

def unresolved : LoopExit → Nat → Nat → Issue
  | breaks => .unresolvedBreak
  | continues => .unresolvedContinue

end LoopExit

namespace Draft

def loopsBefore (graph : Sketch Node BranchKind) (index : Nat) : List Nat :=
  (graph.reverseReachable index).filterMap fun previous =>
    match graph.node? previous with
    | some ⟨.loop, some block⟩ => some block
    | _ => none

def holds (setup : Block) (address : Nat) : Bool :=
  match setup.endTarget with
  | some stop => setup.start < address && address < stop
  | none => false

/-- Of two numbered blocks the one that starts later, the first where both start together. -/
def later (best : Option (Nat × Block)) (candidate : Nat × Block) : Option (Nat × Block) :=
  match best with
  | none => some candidate
  | some (number, block) =>
      if block.start < candidate.2.start then some candidate else some (number, block)

def enclosingLoop? (graph : Sketch Node BranchKind) (blocks : List Block) (index address : Nat) :
    Except Fault (Option (Nat × Block)) := do
  let candidates ← (loopsBefore graph index).mapM fun number => do
    return (number, ← Fault.fetch blocks number)
  return (candidates.filter fun (_, setup) => holds setup address).foldl later none

def dominates (draft : Draft) (dominator number : Nat) : Except Fault Bool := do
  let frozen ← draft.graph.freeze
  match frozen.node? entryIndex, frozen.node? (blockIndex dominator),
      frozen.node? (blockIndex number) with
  | some entry, some dominator, some node =>
      return (DominatorTree.compute frozen.graph entry).dominates dominator node
  | _, _, _ => return true

def continueDestination? (draft : Draft) (block setup : Block) : Option Nat :=
  let encoded := block.continueTarget.filter fun target =>
    setup.encloses target && (Block.startingAt? draft.blocks target).isSome
  encoded.or <| do
    let header ← Block.loopHeader? draft.blocks setup
    let block ← draft.blocks[header]?
    return block.start

/-- Where a break or continue of `block` goes when it leaves through the loop of `setup`. -/
def destination? (draft : Draft) (exit : LoopExit) (block setup : Block) : Option Nat :=
  match exit with
  | .breaks => setup.endTarget
  | .continues => draft.continueDestination? block setup

/-- The jumps of a block after a break or continue in it was resolved: the other markers and the
address to which it goes. -/
def resolvedJumps (exit : LoopExit) (destination : Nat) (jumps : SortedSet Jump) :
    SortedSet Jump :=
  (jumps.filter fun jump => jump.target.isMarker && jump.target != .marker exit.marker).insert
    ⟨.address destination, .always⟩

def resolve (options : Options) (exit : LoopExit) (draft : Draft) (number : Nat) :
    Except Fault Draft := do
  let block ← Fault.fetch draft.blocks number
  let address := (block.markerAddress exit.marker).getD block.start
  match ← enclosingLoop? draft.graph draft.blocks (blockIndex number) address with
  | none => return draft.report (exit.unresolved number address)
  | some (loop, setup) =>
      let dominated ←
        if options.requireDominatingLoop then draft.dominates loop number else pure true
      let draft := if dominated then draft else draft.report (.nonDominatingLoop number loop)
      match draft.destination? exit block setup with
      | none => return draft.report (exit.unresolved number address)
      | some destination =>
          match draft.nodeAt? destination with
          | none => return draft.report (.unknownJumpTarget number destination)
          | some target =>
              draft.redirect number target .always (resolvedJumps exit destination)

end Draft

end StackFlow
