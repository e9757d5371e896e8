import StackFlow.Fault

/-!
# Machine words

Words have thirty-two bits.  Addresses, arguments and line numbers are natural numbers throughout.
A number is a word if it lies below `Word.limit`; the operations whose result must be a word again
check exactly that.
-/

namespace StackFlow.Word

/-- Two to the thirty-second power. -/
def limit : Nat := 4294967296

def ofNat? (value : Nat) : Option Nat :=
  if value < limit then some value else none

def checked (value : Nat) : Except Fault Nat :=
  if value < limit then .ok value else .error .overflow

theorem checked_eq_ok_iff {value word : Nat} :
    checked value = .ok word ↔ value < limit ∧ word = value := by
  unfold checked
  split
  · simp_all [eq_comm]
  · simp only [reduceCtorEq, false_iff]
    omega

end StackFlow.Word
