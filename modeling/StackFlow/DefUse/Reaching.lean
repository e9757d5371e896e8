import StackFlow.Dataflow.Standard
import StackFlow.Sorted.Map

/-!
# States of the definition-use analysis

A state holds for every variable the addresses of the statements whose definitions reach
(`generated`), of the statements that use it (`used`), and of the definitions overwritten on the
way (`killed`).  A statement uses its variables before it defines any.
-/

namespace StackFlow

abbrev AddressMap := SortedMap String (SortedSet Nat)

def AddressMap.union (first second : AddressMap) : AddressMap :=
  SortedMap.unionWith (· ∪ ·) first second

structure Reaching where
  generated : AddressMap := ∅
  used : AddressMap := ∅
  killed : AddressMap := ∅
  deriving DecidableEq

namespace Reaching

def useAt (address : Nat) (state : Reaching) (name : String) : Reaching :=
  { state with used := state.used.insertWith (· ∪ ·) name (.singleton address) }

/-- The state after a definition of a variable.  The constant `None` is no variable. -/
def defineAt (address : Nat) (state : Reaching) (name : String) : Reaching :=
  if name = "None" then
    state
  else
    { state with
      generated := state.generated.insert name (.singleton address)
      killed :=
        match state.generated.get? name with
        | some previous => state.killed.insertWith (· ∪ ·) name previous
        | none => state.killed }

def step (state : Reaching) (statement : Statement) : Reaching :=
  statement.stores.foldl (defineAt statement.start)
    (statement.uses.foldl (useAt statement.start) state)

def join (first second : Reaching) : Reaching :=
  { generated := first.generated.union second.generated
    used := first.used.union second.used
    killed := first.killed.union second.killed }

def lattice : Lattice Reaching :=
  ⟨{}, join⟩

end Reaching

def FlowGraph.reaching (flow : FlowGraph) : Analysis flow.size Node BranchKind Reaching :=
  flow.analysis Reaching.lattice fun node state =>
    (flow.statementsOf node).foldl Reaching.step state

end StackFlow
