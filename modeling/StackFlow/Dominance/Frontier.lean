import StackFlow.Dominance.Tree

/-!
# Dominance frontiers

Dominator trees with their frontiers, from the entry of a graph and, against the edges, from its
exit.
-/

namespace StackFlow

variable {n : Nat} {ν ε : Type}

/-- The nodes that a node puts itself into the frontier of: where two predecessors or more are in
the tree, the ancestors of each of them below the node's own parent. -/
def Parents.runners (parents : Parents n) (pred : Fin n → List (Fin n)) (node : Fin n) :
    List (Fin n) :=
  match parents.get node with
  | none => []
  | some parent =>
      let joining := (pred node).filter fun previous => (parents.get previous).isSome
      if joining.length < 2 then
        []
      else
        joining.flatMap fun previous =>
          (parents.chain previous).takeWhile fun runner => runner ≠ parent

structure DominatorTree (n : Nat) where
  root : Fin n
  parents : Parents n
  frontiers : Vector (List (Fin n)) n
  deriving DecidableEq

namespace DominatorTree

def compute (graph : Digraph n ν ε) (root : Fin n) : DominatorTree n :=
  let parents := graph.dominatorParents root
  let runners : Vector (List (Fin n)) n := Vector.ofFn (parents.runners graph.pred)
  { root
    parents
    frontiers := Vector.ofFn fun member =>
      (List.finRange n).filter fun node => (runners.get node).contains member }

/-- The immediate dominator of a node.  The root is its own; a node that cannot be reached from
the root has none. -/
def parent? (tree : DominatorTree n) (node : Fin n) : Option (Fin n) :=
  tree.parents.get node

def chain (tree : DominatorTree n) (node : Fin n) : List (Fin n) :=
  tree.parents.chain node

def dominates (tree : DominatorTree n) (dominator node : Fin n) : Bool :=
  (tree.chain node).contains dominator

def strictlyDominates (tree : DominatorTree n) (dominator node : Fin n) : Bool :=
  dominator != node && tree.dominates dominator node

def frontier (tree : DominatorTree n) (node : Fin n) : List (Fin n) :=
  tree.frontiers.get node

def edges (tree : DominatorTree n) : List (Fin n × Fin n) :=
  (List.finRange n).filterMap fun child =>
    match tree.parent? child with
    | some parent => if parent = child then none else some (parent, child)
    | none => none

end DominatorTree

structure Dominators (n : Nat) where
  forward : DominatorTree n
  backward : DominatorTree n
  deriving DecidableEq

namespace Dominators

def compute (graph : Digraph n ν ε) (entry exit : Fin n) : Dominators n :=
  { forward := .compute graph entry
    backward := .compute graph.reverse exit }

def entry (dominators : Dominators n) : Fin n :=
  dominators.forward.root

def exit (dominators : Dominators n) : Fin n :=
  dominators.backward.root

def dominates (dominators : Dominators n) (dominator node : Fin n) : Bool :=
  dominators.forward.dominates dominator node

def postDominates (dominators : Dominators n) (dominator node : Fin n) : Bool :=
  dominators.backward.dominates dominator node

end Dominators

end StackFlow
