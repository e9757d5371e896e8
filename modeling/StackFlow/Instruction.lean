import StackFlow.Opcode.Name
import StackFlow.Opcode.StackEffect
import StackFlow.Text.Aligned
import StackFlow.Text.Quoted

/-!
# Decoded instructions

A decoded instruction is an operation at an address with its operand already looked up.

`Instruction.jumpDestination` is where the encoding of a jump is understood.  The argument of an
extended-argument operation right before a jump supplies the bits above the low sixteen.
-/

namespace StackFlow

def scopeLabel (id : Nat) : String :=
  s!"scope#{id}"

inductive Constant where
  | none
  | bool (value : Bool)
  | int (value : Int)
  | str (value : String)
  | code (scope : Nat)
  deriving DecidableEq, Repr

def Constant.text : Constant → String
  | .none => "None"
  | .bool true => "True"
  | .bool false => "False"
  | .int value => toString value
  | .str value => Text.quote value
  | .code scope => s!"<code {scopeLabel scope}>"

inductive Operand where
  | none
  | arg (value : Nat)
  | name (value : String)
  | const (value : Constant)
  deriving DecidableEq, Repr

namespace Operand

def arg? : Operand → Option Nat
  | .arg value => some value
  | _ => Option.none

def name? : Operand → Option String
  | .name value => some value
  | _ => Option.none

def text : Operand → String
  | .none => ""
  | .arg value => toString value
  | .name value => value
  | .const value => value.text

end Operand

structure Instruction where
  address : Nat
  op : Opcode
  operand : Operand := .none
  line : Nat := 0
  scope : Nat := 0
  isJumpTarget : Bool := false
  deriving DecidableEq, Repr

namespace Instruction

def arg (instr : Instruction) : Nat :=
  instr.operand.arg?.getD 0

def nextAddress (instr : Instruction) : Nat :=
  instr.address + instr.op.width

def checkedNextAddress (instr : Instruction) : Except Fault Nat :=
  Word.checked instr.nextAddress

def effect (instr : Instruction) : StackEffect :=
  instr.op.stackEffect instr.arg

def checkedEffect (instr : Instruction) : Except Fault StackEffect :=
  instr.op.checkedStackEffect instr.arg

/-- The destination of a jump, where `extended` is the argument of an extended-argument operation
in front of it, or zero.  There is none if the operation carries no jump, if the operand is no
argument, or if the destination is no word. -/
def jumpDestination (instr : Instruction) (extended jumpWidth : Nat) : Option Nat := do
  let addressing ← instr.op.addressing
  let low ← instr.operand.arg?
  let arg ← Word.ofNat? (extended <<< 16 ||| low)
  match addressing with
  | .absolute => return arg
  | .relative =>
      let base ← Word.ofNat? (instr.address + jumpWidth)
      Word.ofNat? (base + arg)

def text (instr : Instruction) : String :=
  let head := Text.alignRight 4 (toString instr.line) ++ "("
    ++ Text.alignRight 4 (toString instr.address) ++ ") " ++ instr.op.name
  match instr.operand with
  | .none => head
  | operand => head ++ " (" ++ operand.text ++ ")"

end Instruction

end StackFlow
