import StackFlow.Block.Basic
import StackFlow.Scope

/-!
# Partition of a scope into basic blocks

Blocks are cut at the destinations of jumps, after every jump that may fall through, and at the
entry and the end of the scope.  A destination that an extended-argument operation stands in front
of is moved to that operation, so that the two stay together.
-/

namespace StackFlow.Scope

def withPrevious (scope : Scope) : List (Option Instruction × Instruction) :=
  (none :: scope.instructions.map some).zip scope.instructions

def extension : Option Instruction → Nat
  | some previous => if previous.op = .extendedArg then previous.arg else 0
  | none => 0

/-- An address moved to the extended-argument operation in front of the instruction there. -/
def anchor (scope : Scope) (address : Nat) : Nat :=
  let anchors := scope.withPrevious.filterMap fun (previous, instr) =>
    match previous with
    | some previous =>
        if previous.op = .extendedArg && instr.address == address then
          some previous.address
        else
          none
    | none => none
  anchors.getLastD address

def decoded (scope : Scope) : List Decoded :=
  scope.withPrevious.map fun (previous, instr) =>
    { instr
      destination :=
        (instr.jumpDestination (extension previous) scope.jumpWidth).map scope.anchor }

def jumpLeaders : List Decoded → List Nat
  | [] => []
  | code :: rest =>
      let next := (rest.head?.map fun following => following.instr.address).toList
      let own :=
        if code.instr.op.addressing.isNone then []
        else if code.instr.op.neverFallsThrough then code.destination.toList
        else code.destination.toList ++ next
      own ++ jumpLeaders rest

def leaders (scope : Scope) : SortedSet Nat :=
  .ofList (jumpLeaders scope.decoded ++ [scope.entry, scope.endAddress])

def isBoundary (scope : Scope) (address : Nat) : Bool :=
  address == scope.endAddress || (scope.positionOf address).isSome

def boundaries (scope : Scope) : List Nat :=
  scope.leaders.toList.filter scope.isBoundary

/-- The leaders at which no block can start, in ascending order. -/
def ignoredLeaders (scope : Scope) : List Nat :=
  if scope.isEmpty then [] else scope.leaders.toList.filter fun address => !scope.isBoundary address

def blockBetween? (scope : Scope) (code : List Decoded) (start stop : Nat) : Option Block := do
  let lower ← scope.positionOf start
  let upper := (scope.positionOf stop).getD scope.instructions.length
  match (code.take upper).drop lower with
  | [] => none
  | first :: rest => some (.ofCode (stop - start) first rest scope.instructions[upper]?)

def blocks (scope : Scope) : List Block :=
  let boundaries := scope.boundaries
  let code := scope.decoded
  if scope.isEmpty then
    []
  else
    (boundaries.zip boundaries.tail).filterMap fun (start, stop) =>
      scope.blockBetween? code start stop

def checkedBlocks (scope : Scope) : Except Fault (List Block) := do
  let _ ← scope.checkedEndAddress
  return scope.blocks

end StackFlow.Scope
