/-!
# Structural issues

What can be wrong with the code of a scope.  An issue does not stop the analysis: the graph is
built all the same, with the construct in question left as well as it can be.
-/

namespace StackFlow

inductive Issue where
  | unresolvedBreak (block address : Nat)
  | unresolvedContinue (block address : Nat)
  | nonDominatingLoop (block loop : Nat)
  | unknownJumpTarget (block target : Nat)
  | undecodableJump (block address : Nat)
  | unbalancedStatement (block start : Nat) (depth : Int)
  deriving DecidableEq, Repr

def Issue.message : Issue → String
  | .unresolvedBreak block address => s!"break at {address} in b{block} has no enclosing loop"
  | .unresolvedContinue block address =>
      s!"continue at {address} in b{block} has no enclosing loop"
  | .nonDominatingLoop block loop =>
      s!"loop b{loop} resolving the jump in b{block} does not dominate it"
  | .unknownJumpTarget block target =>
      s!"jump from b{block} targets address {target} which starts no block"
  | .undecodableJump block address =>
      s!"jump at {address} in b{block} has no representable destination"
  | .unbalancedStatement block start depth =>
      s!"statement starting at {start} in b{block} leaves {depth} values on the stack"

inductive Warning where
  | ignoredBoundary (address : Nat)
  | issue (finding : Issue)
  deriving DecidableEq, Repr

def Warning.message (scope : String) : Warning → String
  | .ignoredBoundary address =>
      s!"{scope}: ignoring block boundary at {address} which is not an instruction address"
  | .issue finding => s!"{scope}: {finding.message}"

end StackFlow
