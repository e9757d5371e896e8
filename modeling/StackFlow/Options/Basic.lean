/-!
# Options

The options that steer the construction of control-flow graphs and the analyses on them.
-/

namespace StackFlow

/-- `maxSteps` bounds the nodes that one dataflow run may process, `jumpWidth` is the width of a
relative jump in a scope that does not set its own, `pruneJumps` removes the nodes without
predecessors that begin with a jump, and `requireDominatingLoop` reports a break or continue whose
loop does not dominate it. -/
structure Options where
  maxSteps : Nat := 500
  jumpWidth : Nat := 3
  pruneJumps : Bool := true
  requireDominatingLoop : Bool := true
  deriving DecidableEq, Repr

end StackFlow
