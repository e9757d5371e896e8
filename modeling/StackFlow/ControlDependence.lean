import StackFlow.Dominance.Frontier
import StackFlow.Sorted.Map

/-!
# Control dependence

A node depends on the nodes of its post-dominance frontier, which decide whether it is executed.
Every such pair is kept twice, under the node and under the condition.
-/

namespace StackFlow

/-- `conditions` leads from a node to the nodes that decide on it, `dependents` from such a node to
those that it decides on. -/
structure ControlDependence (n : Nat) where
  conditions : SortedMap (Fin n) (SortedSet (Fin n)) := ∅
  dependents : SortedMap (Fin n) (SortedSet (Fin n)) := ∅
  deriving DecidableEq

namespace ControlDependence

variable {n : Nat}

def add (dependence : ControlDependence n) (node condition : Fin n) : ControlDependence n :=
  { conditions := dependence.conditions.insertWith (· ∪ ·) node (.singleton condition)
    dependents := dependence.dependents.insertWith (· ∪ ·) condition (.singleton node) }

def addAll (dependence : ControlDependence n) (node : Fin n) (conditions : List (Fin n)) :
    ControlDependence n :=
  conditions.foldl (fun dependence condition => dependence.add node condition) dependence

def ofDominators (dominators : Dominators n) : ControlDependence n :=
  (List.finRange n).foldl
    (fun dependence node => dependence.addAll node (dominators.backward.frontier node)) {}

def conditionsOf? (dependence : ControlDependence n) (node : Fin n) :
    Option (SortedSet (Fin n)) :=
  dependence.conditions.get? node

def dependentsOf? (dependence : ControlDependence n) (condition : Fin n) :
    Option (SortedSet (Fin n)) :=
  dependence.dependents.get? condition

def dependsOn (dependence : ControlDependence n) (node condition : Fin n) : Bool :=
  (dependence.conditions.get? node).any fun conditions => conditions.contains condition

-- Each pair has the condition first.
def edges (dependence : ControlDependence n) : List (Fin n × Fin n) :=
  dependence.dependents.entries.flatMap fun (condition, dependents) =>
    dependents.toList.map fun node => (condition, node)

def isEmpty (dependence : ControlDependence n) : Bool :=
  dependence.conditions.isEmpty

end ControlDependence

end StackFlow
