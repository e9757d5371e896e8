import StackFlow.Block.Basic

/-!
# Blocks of a loop

A setup opens a region of addresses.  The header of the loop is the block of the region to which the
code in it jumps back.
-/

namespace StackFlow.Block

def startingAt? (blocks : List Block) (address : Nat) : Option Nat :=
  blocks.findIdx? fun block => block.start == address

def encloses (setup : Block) (address : Nat) : Bool :=
  match setup.endTarget with
  | some stop => setup.endAddress ≤ address && address < stop
  | none => false

/-- Whether a block at or after `candidate`, inside the region of `setup`, jumps back to it. -/
def isBackTarget (blocks : List Block) (setup candidate : Block) : Bool :=
  blocks.any fun source =>
    setup.encloses source.start && candidate.start ≤ source.start &&
      source.jumps.toList.any fun jump => jump.target == .address candidate.start

/-- The header of the loop that a block opens: the first block of the region to which a jump leads
back, else the block that follows the setup. -/
def loopHeader? (blocks : List Block) (setup : Block) : Option Nat :=
  if setup.endTarget.isNone then
    none
  else
    (blocks.findIdx? fun candidate =>
      setup.encloses candidate.start && isBackTarget blocks setup candidate).or
      (startingAt? blocks setup.endAddress)

end StackFlow.Block
