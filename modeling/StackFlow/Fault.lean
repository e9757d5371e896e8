/-!
# Faults

The two ways in which a computation on code can end without an answer.

A fault is not a finding about the code under analysis: it says that the computation itself
could not go on.  A sum left the range of machine words, or an index or key named nothing.
-/

namespace StackFlow

inductive Fault where
  | overflow
  | missing
  deriving DecidableEq, Repr

namespace Fault

def require {α : Type} : Option α → Except Fault α
  | some value => .ok value
  | none => .error .missing

def fetch {α : Type} (items : List α) (index : Nat) : Except Fault α :=
  require items[index]?

end Fault

end StackFlow
