import StackFlow.Block.Jump
import StackFlow.Instruction

/-!
# Basic blocks

A basic block is a run of instructions that control enters at the first one only.

A block is read off its instructions once their jumps are decoded.  It need not end at the first
transfer of control: an instruction after a return or an unconditional jump still belongs to it.
-/

namespace StackFlow

structure Decoded where
  instr : Instruction
  destination : Option Nat
  deriving DecidableEq, Repr

namespace Decoded

def branch? (code : Decoded) : Option BranchKind :=
  match code.instr.op.transfer with
  | .setup .loop => some .always
  | .setup .except | .setup .context => some .onException
  | .setup .cleanup => some .onFinally
  | .jump => some .always
  | .jumpIfTrue => some .onTrue
  | .jumpIfFalse | .jumpIfExhausted => some .onFalse
  | .advance | .returns | .breaks | .continues | .raises => none

def marker? (code : Decoded) : Option Marker :=
  match code.instr.op.transfer with
  | .returns => some .returns
  | .breaks => some .breaks
  | .continues => some .continues
  | .raises => some .raises
  | _ => none

def jump? (code : Decoded) : Option Jump :=
  match code.marker? with
  | some .returns => some ⟨.marker .returns, .onReturn⟩
  | some .breaks => some ⟨.marker .breaks, .always⟩
  | some .continues => some ⟨.marker .continues, .always⟩
  | some .raises => some ⟨.marker .raises, .onException⟩
  | none => do
      let kind ← code.branch?
      let destination ← code.destination
      return ⟨.address destination, kind⟩

def isUndecodable (code : Decoded) : Bool :=
  code.branch?.isSome && code.destination.isNone

def setup? (code : Decoded) : Option (Region × Nat) :=
  match code.instr.op.transfer with
  | .setup region => code.destination.map (region, ·)
  | _ => none

end Decoded

inductive BlockKind where
  | entry
  | implicitReturn
  | unclassified
  | loop
  | conditional
  | exceptionHandler
  deriving DecidableEq, Repr

/-- `endTarget` is the end of the region that the block opens, `continueTarget` the encoded
destination of a continue in it, and `undecodable` holds the addresses of the branches whose
destination cannot be decoded. -/
structure Block where
  kind : BlockKind
  start : Nat
  length : Nat
  fallsThrough : Bool
  hasReturnPath : Bool
  endTarget : Option Nat
  continueTarget : Option Nat
  undecodable : List Nat
  jumps : SortedSet Jump
  instructions : List Instruction
  deriving DecidableEq

namespace Block

def regionKind : Region → BlockKind
  | .loop => .loop
  | .except | .cleanup | .context => .exceptionHandler

/-- The kind of a block from its first instruction, the region it opens last, and its last
instruction. -/
def classify (first : Instruction) (setup : Option (Region × Nat)) (last : Instruction) :
    BlockKind :=
  match setup with
  | some (region, _) => regionKind region
  | none =>
      if first.op = .forIter then
        .loop
      else
        match last.op.transfer with
        | .jumpIfTrue | .jumpIfFalse => .conditional
        | _ => .unclassified

def fallThroughKind (last : Instruction) : BranchKind :=
  match last.op.transfer with
  | .jumpIfFalse | .jumpIfExhausted => .onTrue
  | .jumpIfTrue => .onFalse
  | _ => .always

def ofCode (length : Nat) (first : Decoded) (rest : List Decoded) (next : Option Instruction) :
    Block :=
  let code := first :: rest
  let last := (rest.getLastD first).instr
  let setup := (code.filterMap Decoded.setup?).getLast?
  let hasReturnPath := code.any fun item => item.marker?.isSome
  let following :=
    if hasReturnPath || last.op.neverFallsThrough then none else next
  let fallThrough := following.map fun instr =>
    (⟨.address instr.address, fallThroughKind last⟩ : Jump)
  { kind := classify first.instr setup last
    start := first.instr.address
    length
    fallsThrough := following.isSome
    hasReturnPath
    endTarget := setup.map Prod.snd
    continueTarget := (code.filter fun item => item.marker? = some .continues).getLast?.bind
      Decoded.destination
    undecodable := (code.filter Decoded.isUndecodable).map fun item => item.instr.address
    jumps := .ofList (code.filterMap Decoded.jump? ++ fallThrough.toList)
    instructions := code.map Decoded.instr }

def endAddress (block : Block) : Nat :=
  block.start + block.length

def contains (block : Block) (address : Nat) : Bool :=
  block.start ≤ address && address < block.endAddress

def first? (block : Block) : Option Instruction :=
  block.instructions.head?

def last? (block : Block) : Option Instruction :=
  block.instructions.getLast?

def hasMarker (block : Block) (marker : Marker) : Bool :=
  block.jumps.toList.any fun jump => jump.target == .marker marker

def markerTransfer : Marker → Transfer
  | .returns => .returns
  | .breaks => .breaks
  | .continues => .continues
  | .raises => .raises

def markerAddress (block : Block) (marker : Marker) : Option Nat :=
  (block.instructions.find? fun instr => instr.op.transfer = markerTransfer marker).map
    Instruction.address

def addressJumps (block : Block) : List (Nat × BranchKind) :=
  block.jumps.toList.filterMap fun jump => jump.address?.map (·, jump.kind)

end Block

end StackFlow
