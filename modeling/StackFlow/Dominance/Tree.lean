import StackFlow.Graph.Digraph
import StackFlow.Graph.Postorder

/-!
# Dominator trees

The tree is found by iteration.  The nodes are taken in reverse post-order, and each gets as its
parent the nearest common ancestor of those of its predecessors that are in the tree already.
Passes are repeated until one of them changes nothing.  The dominators of a node are then the node
and its ancestors.
-/

namespace StackFlow

/-- The parent of every node that is in the tree.  The root is its own parent. -/
abbrev Parents (n : Nat) := Vector (Option (Fin n)) n

namespace Parents

variable {n : Nat}

def up (parents : Parents n) (root node : Fin n) : Fin n :=
  (parents.get node).getD root

/-- Two fingers that climb in turns, always the one that is further from the root by `number`,
until they meet. -/
def meet (parents : Parents n) (root : Fin n) (number : Fin n → Nat) :
    Nat → Fin n → Fin n → Fin n
  | 0, first, _ => first
  | steps + 1, first, second =>
      if first = second then
        first
      else if number first < number second then
        meet parents root number steps (parents.up root first) second
      else
        meet parents root number steps first (parents.up root second)

def ancestor (parents : Parents n) (root : Fin n) (number : Fin n → Nat) (first second : Fin n) :
    Fin n :=
  parents.meet root number (2 * n) first second

def commonAncestor (parents : Parents n) (root : Fin n) (number : Fin n → Nat)
    (nodes : List (Fin n)) : Option (Fin n) :=
  (nodes.filter fun node => (parents.get node).isSome).foldl
    (fun best node =>
      match best with
      | none => some node
      | some current => some (parents.ancestor root number node current))
    none

def improve (pred : Fin n → List (Fin n)) (root : Fin n) (number : Fin n → Nat)
    (parents : Parents n) (node : Fin n) : Parents n :=
  match parents.commonAncestor root number (pred node) with
  | none => parents
  | some parent => parents.set node (some parent) node.isLt

def pass (pred : Fin n → List (Fin n)) (root : Fin n) (number : Fin n → Nat)
    (order : List (Fin n)) (parents : Parents n) : Parents n :=
  order.foldl (improve pred root number) parents

def settle (step : Parents n → Parents n) : Nat → Parents n → Parents n
  | 0, parents => parents
  | passes + 1, parents =>
      let next := step parents
      if next = parents then parents else settle step passes next

def start (root : Fin n) : Parents n :=
  (Vector.replicate n none).set root (some root) root.isLt

def climb (parents : Parents n) : Nat → Fin n → List (Fin n)
  | 0, _ => []
  | steps + 1, node =>
      match parents.get node with
      | none => []
      | some parent => node :: if parent = node then [] else climb parents steps parent

def chain (parents : Parents n) (node : Fin n) : List (Fin n) :=
  parents.climb n node

end Parents

variable {n : Nat} {ν ε : Type}

/-- The immediate dominators of the nodes that can be reached from the root.  A pass that changes
the tree adds a node or moves a parent towards the root, so `n * n` passes can change it. -/
def Digraph.dominatorParents (graph : Digraph n ν ε) (root : Fin n) : Parents n :=
  let order := postorder graph.succ root
  let numbers : Vector Nat n := Vector.ofFn fun node => order.idxOf node
  Parents.settle
    (Parents.pass graph.pred root numbers.get
      (order.reverse.filter fun node => node ≠ root))
    (n * n + 1) (Parents.start root)

end StackFlow
