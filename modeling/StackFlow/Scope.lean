import StackFlow.Instruction

/-!
# Scopes

A scope is the instruction stream of one module body, function, closure or class body.

The instructions of a scope stand in address order, which the type records.  Two instructions may
share an address; they then keep the order in which they were given.
-/

namespace StackFlow

/-- What is known of a scope apart from its code: the address at which execution starts, and the
width that is added to the address of a relative jump. -/
structure Heading where
  id : Nat := 0
  name : String := "f"
  entry : Nat := 0
  jumpWidth : Nat := 3
  deriving DecidableEq, Repr

structure Scope extends Heading where
  instructions : List Instruction
  sorted : instructions.Pairwise fun first second => first.address ≤ second.address
  deriving DecidableEq

namespace Scope

def sortByAddress (code : List Instruction) : List Instruction :=
  code.mergeSort fun first second => first.address ≤ second.address

theorem pairwise_sortByAddress (code : List Instruction) :
    (sortByAddress code).Pairwise fun first second => first.address ≤ second.address := by
  have h := @List.pairwise_mergeSort Instruction
    (fun first second => decide (first.address ≤ second.address))
    (fun _ _ _ hab hbc => by
      simp only [decide_eq_true_eq] at *
      exact Nat.le_trans hab hbc)
    (fun _ _ => by
      simp only [Bool.or_eq_true, decide_eq_true_eq]
      exact Nat.le_total _ _)
    code
  exact h.imp (by simp)

theorem sortByAddress_eq_self {code : List Instruction}
    (sorted : code.Pairwise fun first second => first.address ≤ second.address) :
    sortByAddress code = code :=
  List.mergeSort_of_pairwise (sorted.imp (by simp))

def ofInstructions (heading : Heading) (code : List Instruction) : Scope :=
  { heading with
    instructions := sortByAddress code
    sorted := pairwise_sortByAddress code }

def ofStream (heading : Heading) (stream : List Instruction) : Scope :=
  ofInstructions heading <|
    stream.filter fun instr => instr.scope == heading.id && heading.entry ≤ instr.address

def isEmpty (scope : Scope) : Bool :=
  scope.instructions.isEmpty

def endAddress (scope : Scope) : Nat :=
  match scope.instructions.getLast? with
  | some last => last.nextAddress
  | none => scope.entry

def checkedEndAddress (scope : Scope) : Except Fault Nat :=
  Word.checked scope.endAddress

def positionOf (scope : Scope) (address : Nat) : Option Nat :=
  scope.instructions.findIdx? fun instr => instr.address == address

def listing (scope : Scope) : String :=
  String.intercalate "\n" (scope.instructions.map Instruction.text)

end Scope

end StackFlow
