import StackFlow.Opcode.Basic

/-!
# Names of operations

The written names of operations, and how a name is read back.
-/

namespace StackFlow

def UnaryOp.name : UnaryOp → String
  | .positive => "Positive"
  | .negative => "Negative"
  | .not => "Not"
  | .invert => "Invert"

def UnaryOp.all : List UnaryOp :=
  [.positive, .negative, .not, .invert]

def BinaryOp.name : BinaryOp → String
  | .add => "Add"
  | .subtract => "Subtract"
  | .multiply => "Multiply"
  | .divide => "Divide"
  | .floorDivide => "FloorDivide"
  | .modulo => "Modulo"
  | .power => "Power"
  | .leftShift => "LeftShift"
  | .rightShift => "RightShift"
  | .and => "And"
  | .or => "Or"
  | .xor => "Xor"

def BinaryOp.all : List BinaryOp :=
  [.add, .subtract, .multiply, .divide, .floorDivide, .modulo, .power, .leftShift, .rightShift,
  .and, .or, .xor]

namespace Opcode

def name : Opcode → String
  | nop => "Nop"
  | extendedArg => "ExtendedArg"
  | popTop => "PopTop"
  | rotTwo => "RotTwo"
  | rotThree => "RotThree"
  | dupTop => "DupTop"
  | compareOp => "CompareOp"
  | binarySubscr => "BinarySubscr"
  | storeSubscr => "StoreSubscr"
  | deleteSubscr => "DeleteSubscr"
  | loadConst => "LoadConst"
  | loadName => "LoadName"
  | storeName => "StoreName"
  | deleteName => "DeleteName"
  | loadFast => "LoadFast"
  | storeFast => "StoreFast"
  | deleteFast => "DeleteFast"
  | loadGlobal => "LoadGlobal"
  | storeGlobal => "StoreGlobal"
  | deleteGlobal => "DeleteGlobal"
  | loadDeref => "LoadDeref"
  | storeDeref => "StoreDeref"
  | loadClosure => "LoadClosure"
  | loadAttr => "LoadAttr"
  | storeAttr => "StoreAttr"
  | deleteAttr => "DeleteAttr"
  | buildTuple => "BuildTuple"
  | buildList => "BuildList"
  | buildMap => "BuildMap"
  | storeMap => "StoreMap"
  | listAppend => "ListAppend"
  | unpackSequence => "UnpackSequence"
  | callFunction => "CallFunction"
  | callFunctionVar => "CallFunctionVar"
  | callFunctionKw => "CallFunctionKw"
  | callFunctionVarKw => "CallFunctionVarKw"
  | makeFunction => "MakeFunction"
  | makeClosure => "MakeClosure"
  | buildClass => "BuildClass"
  | importName => "ImportName"
  | importFrom => "ImportFrom"
  | getIter => "GetIter"
  | forIter => "ForIter"
  | jumpForward => "JumpForward"
  | jumpAbsolute => "JumpAbsolute"
  | popJumpIfFalse => "PopJumpIfFalse"
  | popJumpIfTrue => "PopJumpIfTrue"
  | jumpIfFalseOrPop => "JumpIfFalseOrPop"
  | jumpIfTrueOrPop => "JumpIfTrueOrPop"
  | setupLoop => "SetupLoop"
  | setupExcept => "SetupExcept"
  | setupFinally => "SetupFinally"
  | setupWith => "SetupWith"
  | popBlock => "PopBlock"
  | endFinally => "EndFinally"
  | withCleanup => "WithCleanup"
  | breakLoop => "BreakLoop"
  | continueLoop => "ContinueLoop"
  | returnValue => "ReturnValue"
  | raiseVarargs => "RaiseVarargs"
  | yieldValue => "YieldValue"
  | printItem => "PrintItem"
  | printNewline => "PrintNewline"
  | unary op => s!"Unary({op.name})"
  | binary op => s!"Binary({op.name})"
  | inPlace op => s!"InPlace({op.name})"

def all : List Opcode :=
  [nop, extendedArg, popTop, rotTwo, rotThree, dupTop, compareOp, binarySubscr, storeSubscr,
  deleteSubscr, loadConst, loadName, storeName, deleteName, loadFast, storeFast, deleteFast,
  loadGlobal, storeGlobal, deleteGlobal, loadDeref, storeDeref, loadClosure, loadAttr, storeAttr,
  deleteAttr, buildTuple, buildList, buildMap, storeMap, listAppend, unpackSequence,
  callFunction, callFunctionVar, callFunctionKw, callFunctionVarKw, makeFunction, makeClosure,
  buildClass, importName, importFrom, getIter, forIter, jumpForward, jumpAbsolute,
  popJumpIfFalse, popJumpIfTrue, jumpIfFalseOrPop, jumpIfTrueOrPop, setupLoop, setupExcept,
  setupFinally, setupWith, popBlock, endFinally, withCleanup, breakLoop, continueLoop,
  returnValue, raiseVarargs, yieldValue, printItem, printNewline]
    ++ UnaryOp.all.map unary ++ BinaryOp.all.map binary ++ BinaryOp.all.map inPlace

def ofName? (text : String) : Option Opcode :=
  all.find? fun op => op.name == text

end Opcode

end StackFlow
