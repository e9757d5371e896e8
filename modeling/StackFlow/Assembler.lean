import StackFlow.Scope

/-!
# Assembly of a scope from symbolic code

An instruction gets its address when it is emitted.  A jump is emitted with a label in place of
its argument, and `Assembler.finish` encodes all jumps once every label is bound, each by its own
addressing.
-/

namespace StackFlow

inductive AssemblyError where
  | unbound (label : Nat) (scope : String)
  | unreachable (address target : Nat) (scope : String)
  | noJump (op : Opcode) (address : Nat)
  | fault (cause : Fault)
  deriving DecidableEq, Repr

def AssemblyError.message : AssemblyError → String
  | .unbound label scope => s!"label {label} used by {scope} is never bound"
  | .unreachable address target scope =>
      s!"relative jump at {address} in {scope} cannot reach {target}"
  | .noJump op address => s!"{op.name} at {address} does not carry a jump"
  | .fault .overflow => "an address is no machine word"
  | .fault .missing => "a label was never created"

structure Emitted where
  instr : Instruction
  label : Option Nat := none
  deriving DecidableEq, Repr

/-- Code under assembly.  `labels` holds the address of every label that is bound so far. -/
structure Assembler where
  heading : Heading
  nextAddress : Nat
  line : Nat := 1
  code : List Emitted := []
  labels : List (Option Nat) := []
  deriving DecidableEq, Repr

namespace Assembler

def start (heading : Heading) : Assembler :=
  { heading, nextAddress := heading.entry }

inductive Step where
  | newLabel
  | bind (label : Nat)
  | setLine (line : Nat)
  | currentAddress
  | emit (op : Opcode) (operand : Operand)
  | jump (op : Opcode) (label : Nat)
  deriving DecidableEq, Repr

def emit (asm : Assembler) (op : Opcode) (operand : Operand) (label : Option Nat) :
    Except Fault Assembler := do
  let instr : Instruction :=
    { address := asm.nextAddress, op, operand, line := asm.line, scope := asm.heading.id }
  let next ← instr.checkedNextAddress
  return { asm with nextAddress := next, code := asm.code ++ [⟨instr, label⟩] }

def hasLabel (asm : Assembler) (label : Nat) : Bool :=
  label < asm.labels.length

def step (asm : Assembler) : Step → Except Fault (Assembler × Option Nat)
  | .newLabel => .ok ({ asm with labels := asm.labels ++ [none] }, some asm.labels.length)
  | .bind label =>
      if asm.hasLabel label then
        .ok ({ asm with labels := asm.labels.set label (some asm.nextAddress) }, none)
      else
        .error .missing
  | .setLine line => .ok ({ asm with line }, none)
  | .currentAddress => .ok (asm, some asm.nextAddress)
  | .emit op operand => do
      let next ← asm.emit op operand none
      return (next, some asm.nextAddress)
  | .jump op label => do
      let next ← asm.emit op (.arg 0) (some label)
      return (next, some asm.nextAddress)

def run (asm : Assembler) : List Step → Except Fault Assembler
  | [] => .ok asm
  | first :: rest => do
      let (next, _) ← asm.step first
      next.run rest

def target (asm : Assembler) (label : Nat) : Except AssemblyError Nat :=
  match asm.labels[label]? with
  | some (some address) => .ok address
  | some none => .error (.unbound label asm.heading.name)
  | none => .error (.fault .missing)

def encode (asm : Assembler) (instr : Instruction) (label : Nat) : Except AssemblyError Nat := do
  let target ← asm.target label
  match instr.op.addressing with
  | some .absolute => return target
  | some .relative =>
      let base ← (Word.checked (instr.address + asm.heading.jumpWidth)).mapError .fault
      if target < base then
        throw (.unreachable instr.address target asm.heading.name)
      return target - base
  | none => throw (.noJump instr.op instr.address)

def link (asm : Assembler) (emitted : Emitted) : Except AssemblyError Instruction :=
  match emitted.label with
  | none => .ok emitted.instr
  | some label => do
      let arg ← asm.encode emitted.instr label
      return { emitted.instr with operand := .arg arg }

def boundAddresses (asm : Assembler) : List Nat :=
  asm.labels.filterMap id

/-- The assembled scope.  Of several faulty jumps the earliest is reported. -/
def finish (asm : Assembler) : Except AssemblyError Scope := do
  let code ← asm.code.mapM asm.link
  return .ofInstructions asm.heading <|
    code.map fun instr =>
      { instr with isJumpTarget := asm.boundAddresses.contains instr.address }

end Assembler

end StackFlow
