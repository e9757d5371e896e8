import StackFlow.Graph.Edge

/-!
# Directed graphs

The nodes are `0, …, n - 1`, and the graph is read but no longer changed.

The successors and predecessors of a node come in the order of the edge list.  Turning all edges
round exchanges the two.
-/

namespace StackFlow

def node? (n number : Nat) : Option (Fin n) :=
  if h : number < n then some ⟨number, h⟩ else none

/-! ## Tables with one entry for every node -/

section Table

variable {n : Nat} {α : Type}

@[simp] theorem get_set_node (table : Vector α n) (node other : Fin n) (value : α) :
    (table.set node value node.isLt).get other =
      if other = node then value else table.get other := by
  change (table.set node value node.isLt)[other.val] =
    if other = node then value else table[other.val]
  rw [Vector.getElem_set]
  simp only [Fin.ext_iff, eq_comm]

@[simp] theorem get_replicate_node (value : α) (node : Fin n) :
    (Vector.replicate n value).get node = value :=
  Vector.getElem_replicate node.isLt

@[simp] theorem get_ofFn_node (entry : Fin n → α) (node : Fin n) :
    (Vector.ofFn entry).get node = entry node :=
  Vector.getElem_ofFn node.isLt

theorem table_ext {table other : Vector α n} (same : ∀ node, table.get node = other.get node) :
    table = other :=
  Vector.ext fun index bound => same ⟨index, bound⟩

end Table

/-! ## Graphs -/

structure Digraph (n : Nat) (ν ε : Type) where
  labels : Vector ν n
  edges : List (Edge (Fin n) ε)
  deriving DecidableEq

namespace Digraph

variable {n : Nat} {ν ε : Type}

def label (graph : Digraph n ν ε) (node : Fin n) : ν :=
  graph.labels.get node

def outEdges (graph : Digraph n ν ε) (node : Fin n) : List (Edge (Fin n) ε) :=
  graph.edges.filter fun edge => edge.source == node

def inEdges (graph : Digraph n ν ε) (node : Fin n) : List (Edge (Fin n) ε) :=
  graph.edges.filter fun edge => edge.target == node

def succ (graph : Digraph n ν ε) (node : Fin n) : List (Fin n) :=
  (graph.outEdges node).map Edge.target

def pred (graph : Digraph n ν ε) (node : Fin n) : List (Fin n) :=
  (graph.inEdges node).map Edge.source

def findEdge? (graph : Digraph n ν ε) (source target : Fin n) : Option (Edge (Fin n) ε) :=
  (graph.outEdges source).find? fun edge => edge.target == target

def reverse (graph : Digraph n ν ε) : Digraph n ν ε :=
  { graph with edges := graph.edges.map Edge.flip }

theorem mem_succ {graph : Digraph n ν ε} {node next : Fin n} :
    next ∈ graph.succ node ↔ ∃ edge ∈ graph.edges, edge.source = node ∧ edge.target = next := by
  simp [succ, outEdges, and_assoc]

theorem mem_pred {graph : Digraph n ν ε} {node previous : Fin n} :
    previous ∈ graph.pred node ↔
      ∃ edge ∈ graph.edges, edge.target = node ∧ edge.source = previous := by
  simp [pred, inEdges, and_assoc]

theorem mem_pred_iff_mem_succ {graph : Digraph n ν ε} {node previous : Fin n} :
    previous ∈ graph.pred node ↔ node ∈ graph.succ previous := by
  rw [mem_pred, mem_succ]
  exact exists_congr fun edge => and_congr_right fun _ => and_comm

@[simp] theorem succ_reverse (graph : Digraph n ν ε) : graph.reverse.succ = graph.pred := by
  funext node
  simp only [succ, outEdges, reverse, pred, inEdges, List.filter_map, List.map_map]
  rfl

@[simp] theorem pred_reverse (graph : Digraph n ν ε) : graph.reverse.pred = graph.succ := by
  funext node
  simp only [succ, outEdges, reverse, pred, inEdges, List.filter_map, List.map_map]
  rfl

end Digraph

end StackFlow
