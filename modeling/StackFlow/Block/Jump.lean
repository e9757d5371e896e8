import StackFlow.Sorted.Set

/-!
# Jumps that leave a block

A jump goes to an address, or it carries a marker: a transfer whose destination is known only once
all blocks are.  Jumps are ordered by destination, addresses before markers, then by kind.
-/

namespace StackFlow

inductive Marker where
  | returns
  | breaks
  | continues
  | raises
  deriving DecidableEq, Repr

def Marker.all : List Marker :=
  [.returns, .breaks, .continues, .raises]

inductive Target where
  | address (value : Nat)
  | marker (value : Marker)
  deriving DecidableEq, Repr

namespace Target

def isMarker : Target → Bool
  | .address _ => false
  | .marker _ => true

/-- Addresses come first, then the markers in their own order. -/
def rank : Target → Nat
  | .address _ => 0
  | .marker .returns => 1
  | .marker .breaks => 2
  | .marker .continues => 3
  | .marker .raises => 4

def offset : Target → Nat
  | .address value => value
  | .marker _ => 0

theorem eq_of_rank_eq {first second : Target} (hrank : first.rank = second.rank)
    (hoffset : first.offset = second.offset) : first = second := by
  rcases first with a | (_ | _ | _ | _) <;> rcases second with b | (_ | _ | _ | _) <;>
    simp_all [rank, offset]

end Target

inductive BranchKind where
  | always
  | onTrue
  | onFalse
  | onException
  | onFinally
  | onReturn
  deriving DecidableEq, Repr

namespace BranchKind

def rank : BranchKind → Nat
  | always => 0
  | onTrue => 1
  | onFalse => 2
  | onException => 3
  | onFinally => 4
  | onReturn => 5

def text : BranchKind → String
  | always => ""
  | onTrue => "T"
  | onFalse => "F"
  | onException => "E"
  | onFinally => "finally"
  | onReturn => "return"

theorem eq_of_rank_eq {first second : BranchKind} (h : first.rank = second.rank) :
    first = second := by
  cases first <;> cases second <;> simp_all [rank]

end BranchKind

structure Jump where
  target : Target
  kind : BranchKind
  deriving DecidableEq, Repr

namespace Jump

def address? (jump : Jump) : Option Nat :=
  match jump.target with
  | .address value => some value
  | .marker _ => none

def order (first second : Jump) : Ordering :=
  compareLex (compareOn fun jump : Jump => jump.target.rank)
    (compareLex (compareOn fun jump : Jump => jump.target.offset)
      (compareOn fun jump : Jump => jump.kind.rank)) first second

instance : Ord Jump := ⟨order⟩

instance : Std.TransOrd Jump :=
  inferInstanceAs (Std.TransCmp (compareLex (compareOn fun jump : Jump => jump.target.rank)
    (compareLex (compareOn fun jump : Jump => jump.target.offset)
      (compareOn fun jump : Jump => jump.kind.rank))))

theorem eq_of_order_eq {first second : Jump} (h : order first second = .eq) : first = second := by
  simp only [order, compareLex_eq_eq, compareOn, Nat.compare_eq_eq] at h
  obtain ⟨hrank, hoffset, hkind⟩ := h
  obtain ⟨target, kind⟩ := first
  obtain rfl := Target.eq_of_rank_eq hrank hoffset
  obtain rfl := BranchKind.eq_of_rank_eq hkind
  rfl

instance : Std.LawfulEqOrd Jump where
  eq_of_compare := eq_of_order_eq

end Jump

end StackFlow
