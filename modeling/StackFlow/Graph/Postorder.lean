/-!
# Depth-first post-order

This is the order in which a depth-first search leaves the nodes it reaches.

The search is given by the successors of each node alone, so it runs on a graph and on its reverse
alike.  A node is entered once, so no path of the search holds more than `n` nodes, and `n` levels
of recursion are enough.
-/

namespace StackFlow

structure Search (n : Nat) where
  seen : List (Fin n) := []
  finished : List (Fin n) := []
  deriving DecidableEq, Repr

namespace Search

variable {n : Nat}

def visit (succ : Fin n → List (Fin n)) : Nat → Search n → Fin n → Search n
  | 0, search, _ => search
  | depth + 1, search, node =>
      if search.seen.contains node then
        search
      else
        let entered := { search with seen := node :: search.seen }
        let inner := (succ node).foldl (visit succ depth) entered
        { inner with finished := inner.finished ++ [node] }

end Search

/-- The nodes that can be reached from `root`, each after the nodes below it in the search. -/
def postorder {n : Nat} (succ : Fin n → List (Fin n)) (root : Fin n) : List (Fin n) :=
  (Search.visit succ n {} root).finished

end StackFlow
