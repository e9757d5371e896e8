import StackFlow.Word
import StackFlow.Opcode.Basic

/-!
# Effects on the operand stack

The effect depends on the argument for the operations that build, unpack, call or raise.  An
operation that may jump reports the effect of going on to the next instruction.
-/

namespace StackFlow

structure StackEffect where
  pops : Nat
  pushes : Nat
  deriving DecidableEq, Repr

namespace StackEffect

def net (effect : StackEffect) : Int :=
  (effect.pushes : Int) - (effect.pops : Int)

end StackEffect

namespace Opcode

/-- The values that a call takes besides the function: one per positional argument, counted in the
low byte, and two per keyword argument, counted in the byte above it. -/
def callArguments (arg : Nat) : Nat :=
  arg % 256 + 2 * (arg / 256 % 256)

def stackEffect (op : Opcode) (arg : Nat) : StackEffect :=
  match op with
  | nop | extendedArg | popBlock | printNewline | breakLoop | continueLoop
  | jumpForward | jumpAbsolute | setupLoop | setupExcept | setupFinally
  | deleteName | deleteFast | deleteGlobal => ⟨0, 0⟩
  | popTop | printItem | returnValue | endFinally | withCleanup
  | popJumpIfFalse | popJumpIfTrue | jumpIfFalseOrPop | jumpIfTrueOrPop
  | storeName | storeFast | storeGlobal | storeDeref | deleteAttr | listAppend => ⟨1, 0⟩
  | rotTwo => ⟨2, 2⟩
  | rotThree => ⟨3, 3⟩
  | dupTop => ⟨1, 2⟩
  | unary _ | loadAttr | getIter | yieldValue => ⟨1, 1⟩
  | binary _ | inPlace _ | compareOp | binarySubscr | importName => ⟨2, 1⟩
  | storeSubscr => ⟨3, 0⟩
  | deleteSubscr | storeAttr => ⟨2, 0⟩
  | loadConst | loadName | loadFast | loadGlobal | loadDeref | loadClosure | buildMap => ⟨0, 1⟩
  | storeMap | buildClass => ⟨3, 1⟩
  | buildTuple | buildList => ⟨arg, 1⟩
  | unpackSequence => ⟨1, arg⟩
  | callFunction => ⟨callArguments arg + 1, 1⟩
  | callFunctionVar | callFunctionKw => ⟨callArguments arg + 2, 1⟩
  | callFunctionVarKw => ⟨callArguments arg + 3, 1⟩
  | makeFunction => ⟨arg + 1, 1⟩
  | makeClosure => ⟨arg + 2, 1⟩
  | importFrom | forIter | setupWith => ⟨1, 2⟩
  | raiseVarargs => ⟨arg, 0⟩

def checkedStackEffect (op : Opcode) (arg : Nat) : Except Fault StackEffect := do
  let pops ← Word.checked (op.stackEffect arg).pops
  let pushes ← Word.checked (op.stackEffect arg).pushes
  return ⟨pops, pushes⟩

end Opcode

end StackFlow
