import StackFlow.Block.Basic

/-!
# Statements

Statements are recovered from the code of a block by its effect on the operand stack.

A statement ends with the instruction that brings the stack back to the depth at which the
statement began, or below.  The stack is followed symbolically: an entry is the dotted name of the
value if that is known.  So names that flow into attribute accesses are attributed to the
statement, and no expression is rebuilt.
-/

namespace StackFlow

structure Names where
  stores : List String := []
  loads : List String := []
  deletes : List String := []
  deriving DecidableEq, Repr

def Names.append (first second : Names) : Names :=
  { stores := first.stores ++ second.stores
    loads := first.loads ++ second.loads
    deletes := first.deletes ++ second.deletes }

/-- `start` and `last` are the addresses of the first and the last instruction, `depth` is the
depth of the stack at the end.  A statement that its block leaves open is not balanced. -/
structure Statement extends Names where
  start : Nat
  last : Nat
  balanced : Bool
  depth : Int
  deriving DecidableEq, Repr

namespace Statement

def isAssignment (statement : Statement) : Bool :=
  !statement.stores.isEmpty

def uses (statement : Statement) : List String :=
  statement.loads ++ statement.deletes

end Statement

/-- The names of the values on the operand stack as far as they are known, the top first. -/
abbrev NameStack := List (Option String)

namespace NameStack

def attribute? (stack : NameStack) (attr : String) : Option String :=
  stack.head?.join.map fun base => base ++ "." ++ attr

def replace (stack : NameStack) (effect : StackEffect) : NameStack :=
  List.replicate effect.pushes none ++ stack.drop effect.pops

def shuffle (stack : NameStack) (op : Opcode) (effect : StackEffect) : NameStack :=
  match op, stack with
  | .dupTop, stack => stack.head?.join :: stack
  | .rotTwo, first :: second :: rest => second :: first :: rest
  | .rotThree, first :: second :: third :: rest => second :: third :: first :: rest
  | _, stack => stack.replace effect

def step (stack : NameStack) (instr : Instruction) : NameStack × Names :=
  match instr.op.nameAccess, instr.operand.name? with
  | some .load, some name => (some name :: stack, { loads := [name] })
  | some .store, some name => (stack.drop 1, { stores := [name] })
  | some .delete, some name => (stack, { deletes := [name] })
  | some .loadAttr, some attr =>
      let path := stack.attribute? attr
      (path :: stack.drop 1, { loads := path.toList })
  | some .storeAttr, some attr => (stack.drop 2, { stores := (stack.attribute? attr).toList })
  | some .deleteAttr, some attr => (stack.drop 1, { deletes := (stack.attribute? attr).toList })
  | _, _ => (stack.shuffle instr.op instr.effect, {})

end NameStack

structure OpenStatement extends Names where
  start : Nat
  last : Nat
  deriving DecidableEq, Repr

/-- The state in which a block is split: the statements closed, the one that is open, the stack
and its depth since the last statement was closed. -/
structure Splitter where
  closed : List Statement := []
  current : Option OpenStatement := none
  stack : NameStack := []
  depth : Int := 0
  deriving DecidableEq, Repr

namespace Splitter

def extend (current : Option OpenStatement) (address : Nat) (names : Names) : OpenStatement :=
  match current with
  | none => { names with start := address, last := address }
  | some statement =>
      { statement.toNames.append names with start := statement.start, last := address }

def close (splitter : Splitter) (balanced : Bool) : Splitter :=
  match splitter.current with
  | none => { closed := splitter.closed }
  | some statement =>
      { closed := splitter.closed ++
          [{ statement with balanced, depth := splitter.depth }] }

/-- The state after one instruction.  An extended-argument operation never ends a statement. -/
def step (splitter : Splitter) (instr : Instruction) : Splitter :=
  let (stack, names) := splitter.stack.step instr
  let next : Splitter :=
    { splitter with
      current := some (extend splitter.current instr.address names)
      stack
      depth := splitter.depth + instr.effect.net }
  if instr.op ≠ .extendedArg ∧ next.depth ≤ 0 then next.close true else next

def finish (splitter : Splitter) : List Statement :=
  if splitter.current.isSome then (splitter.close false).closed else splitter.closed

end Splitter

def splitStatements (code : List Instruction) : List Statement :=
  (code.foldl Splitter.step {}).finish

namespace Block

def statements (block : Block) : List Statement :=
  splitStatements block.instructions

def checkedStatements (block : Block) : Except Fault (List Statement) := do
  let _ ← block.instructions.mapM Instruction.checkedEffect
  return block.statements

end Block

end StackFlow
