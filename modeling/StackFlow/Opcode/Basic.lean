/-!
# Operations of the stack machine

The set of operations is closed.  Here are the facts about an operation that do not depend on its
operand: encoded width, addressing of a jump, transfer of control, access to names.
-/

namespace StackFlow

inductive UnaryOp where
  | positive
  | negative
  | not
  | invert
  deriving DecidableEq, Repr

inductive BinaryOp where
  | add
  | subtract
  | multiply
  | divide
  | floorDivide
  | modulo
  | power
  | leftShift
  | rightShift
  | and
  | or
  | xor
  deriving DecidableEq, Repr

inductive Opcode where
  | nop
  | extendedArg
  | popTop
  | rotTwo
  | rotThree
  | dupTop
  | unary (op : UnaryOp)
  | binary (op : BinaryOp)
  | inPlace (op : BinaryOp)
  | compareOp
  | binarySubscr
  | storeSubscr
  | deleteSubscr
  | loadConst
  | loadName
  | storeName
  | deleteName
  | loadFast
  | storeFast
  | deleteFast
  | loadGlobal
  | storeGlobal
  | deleteGlobal
  | loadDeref
  | storeDeref
  | loadClosure
  | loadAttr
  | storeAttr
  | deleteAttr
  | buildTuple
  | buildList
  | buildMap
  | storeMap
  | listAppend
  | unpackSequence
  | callFunction
  | callFunctionVar
  | callFunctionKw
  | callFunctionVarKw
  | makeFunction
  | makeClosure
  | buildClass
  | importName
  | importFrom
  | getIter
  | forIter
  | jumpForward
  | jumpAbsolute
  | popJumpIfFalse
  | popJumpIfTrue
  | jumpIfFalseOrPop
  | jumpIfTrueOrPop
  | setupLoop
  | setupExcept
  | setupFinally
  | setupWith
  | popBlock
  | endFinally
  | withCleanup
  | breakLoop
  | continueLoop
  | returnValue
  | raiseVarargs
  | yieldValue
  | printItem
  | printNewline
  deriving DecidableEq, Repr

/-- How a jump encodes its destination: as an address, or as a distance from the address that
follows the jump. -/
inductive Addressing where
  | absolute
  | relative
  deriving DecidableEq, Repr

inductive Region where
  | loop
  | except
  | cleanup
  | context
  deriving DecidableEq, Repr

/-- What an operation does to control.  `advance` goes on to the next instruction, `setup` goes on
and opens a region that ends at the encoded destination, `jumpIfTrue`, `jumpIfFalse` and
`jumpIfExhausted` go on or jump. -/
inductive Transfer where
  | advance
  | jump
  | jumpIfTrue
  | jumpIfFalse
  | jumpIfExhausted
  | setup (region : Region)
  | returns
  | breaks
  | continues
  | raises
  deriving DecidableEq, Repr

inductive NameAccess where
  | load
  | store
  | delete
  | loadAttr
  | storeAttr
  | deleteAttr
  deriving DecidableEq, Repr

namespace Opcode

def hasArgument : Opcode → Bool
  | nop | popTop | rotTwo | rotThree | dupTop | unary _ | binary _ | inPlace _ | binarySubscr
  | storeSubscr | deleteSubscr | storeMap | buildClass | getIter | popBlock | endFinally
  | withCleanup | breakLoop | returnValue | yieldValue | printItem | printNewline => false
  | _ => true

def width (op : Opcode) : Nat :=
  if op.hasArgument then 3 else 1

def addressing : Opcode → Option Addressing
  | jumpAbsolute | popJumpIfFalse | popJumpIfTrue | jumpIfFalseOrPop | jumpIfTrueOrPop
  | continueLoop => some .absolute
  | jumpForward | forIter | setupLoop | setupExcept | setupFinally | setupWith => some .relative
  | _ => none

def transfer : Opcode → Transfer
  | jumpForward | jumpAbsolute => .jump
  | popJumpIfTrue | jumpIfTrueOrPop => .jumpIfTrue
  | popJumpIfFalse | jumpIfFalseOrPop => .jumpIfFalse
  | forIter => .jumpIfExhausted
  | setupLoop => .setup .loop
  | setupExcept => .setup .except
  | setupFinally => .setup .cleanup
  | setupWith => .setup .context
  | returnValue => .returns
  | breakLoop => .breaks
  | continueLoop => .continues
  | raiseVarargs => .raises
  | _ => .advance

/-- Whether the operation is a jump in the narrow sense: a transfer, always or on a condition, to
the encoded destination. -/
def isJump (op : Opcode) : Bool :=
  match op.transfer with
  | .jump | .jumpIfTrue | .jumpIfFalse | .jumpIfExhausted => true
  | _ => false

def neverFallsThrough : Opcode → Bool
  | jumpAbsolute | jumpForward => true
  | _ => false

/-- Whether the operation leaves values on the stack for the code that control reaches next. -/
def handsOperands : Opcode → Bool
  | getIter | forIter | setupWith | jumpIfFalseOrPop | jumpIfTrueOrPop => true
  | _ => false

def nameAccess : Opcode → Option NameAccess
  | loadName | loadFast | loadGlobal | loadDeref | loadClosure => some .load
  | storeName | storeFast | storeGlobal | storeDeref => some .store
  | deleteName | deleteFast | deleteGlobal => some .delete
  | loadAttr => some .loadAttr
  | storeAttr => some .storeAttr
  | deleteAttr => some .deleteAttr
  | _ => none

theorem width_pos (op : Opcode) : 0 < op.width := by
  unfold width
  split <;> decide

theorem addressing_isSome_of_isJump {op : Opcode} (h : op.isJump = true) :
    op.addressing.isSome = true := by
  cases op <;> simp_all [isJump, transfer, addressing]

end Opcode

end StackFlow
