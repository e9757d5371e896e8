import StackFlow.Fault
import StackFlow.Graph.Digraph
import StackFlow.Sorted.Set

/-!
# Graphs under construction

Nodes keep their index while others come and go.  The index of a removed node is given out again,
the one freed last first.  Between an ordered pair of nodes there is at most one edge.
`Sketch.freeze` ends the construction: the nodes that are left are numbered anew in the order of
their indices.
-/

namespace StackFlow

/-- `slots` holds the label of every node at its index, `free` the indices of removed nodes, the
latest first. -/
structure Sketch (ν ε : Type) where
  slots : List (Option ν) := []
  free : List Nat := []
  edges : List (Edge Nat ε) := []
  deriving DecidableEq, Repr

namespace Sketch

variable {ν ε : Type}

def node? (sketch : Sketch ν ε) (index : Nat) : Option ν :=
  sketch.slots[index]?.join

def contains (sketch : Sketch ν ε) (index : Nat) : Bool :=
  (sketch.node? index).isSome

def nodes (sketch : Sketch ν ε) : List (Nat × ν) :=
  sketch.slots.zipIdx.filterMap fun (slot, index) => slot.map (index, ·)

def indices (sketch : Sketch ν ε) : List Nat :=
  sketch.nodes.map Prod.fst

def nextIndex (sketch : Sketch ν ε) : Nat :=
  sketch.free.headD sketch.slots.length

def addNode (sketch : Sketch ν ε) (label : ν) : Sketch ν ε :=
  match sketch.free with
  | [] => { sketch with slots := sketch.slots ++ [some label] }
  | index :: rest => { sketch with slots := sketch.slots.set index (some label), free := rest }

def setNode (sketch : Sketch ν ε) (index : Nat) (label : ν) : Sketch ν ε :=
  if sketch.contains index then
    { sketch with slots := sketch.slots.set index (some label) }
  else
    sketch

def hasEdge (sketch : Sketch ν ε) (source target : Nat) : Bool :=
  sketch.edges.any fun edge => edge.source == source && edge.target == target

/-- The sketch with one more edge; unchanged where the pair has an edge already. -/
def addEdge (sketch : Sketch ν ε) (source target : Nat) (label : ε) :
    Except Fault (Sketch ν ε) :=
  if sketch.hasEdge source target then
    .ok sketch
  else if sketch.contains source && sketch.contains target then
    .ok { sketch with edges := sketch.edges ++ [⟨source, target, label⟩] }
  else
    .error .missing

def addEdges (sketch : Sketch ν ε) : List (Edge Nat ε) → Except Fault (Sketch ν ε)
  | [] => .ok sketch
  | edge :: rest => do
      let next ← sketch.addEdge edge.source edge.target edge.label
      next.addEdges rest

def clearOut (sketch : Sketch ν ε) (index : Nat) : Sketch ν ε :=
  { sketch with edges := sketch.edges.filter fun edge => edge.source != index }

def removeNode (sketch : Sketch ν ε) (index : Nat) : Sketch ν ε :=
  if sketch.contains index then
    { slots := sketch.slots.set index none
      free := index :: sketch.free
      edges := sketch.edges.filter fun edge => edge.source != index && edge.target != index }
  else
    sketch

def insertByTarget (edge : Edge Nat ε) : List (Edge Nat ε) → List (Edge Nat ε)
  | [] => [edge]
  | head :: rest =>
      if edge.target ≤ head.target then edge :: head :: rest else head :: insertByTarget edge rest

def outEdges (sketch : Sketch ν ε) (index : Nat) : List (Edge Nat ε) :=
  (sketch.edges.filter fun edge => edge.source == index).foldr insertByTarget []

def pred (sketch : Sketch ν ε) (index : Nat) : SortedSet Nat :=
  .ofList ((sketch.edges.filter fun edge => edge.target == index).map Edge.source)

def inDegree (sketch : Sketch ν ε) (index : Nat) : Nat :=
  (sketch.edges.filter fun edge => edge.target == index).length

/-! ## Reachability against the edges -/

/-- The predecessors of the nodes of a level that were not seen before, in order of discovery. -/
def discover (sketch : Sketch ν ε) (seen : List Nat) : List Nat → List Nat
  | [] => []
  | index :: rest =>
      let fresh := (sketch.pred index).toList.filter fun previous => !seen.contains previous
      fresh ++ discover sketch (seen ++ fresh) rest

def sweep (sketch : Sketch ν ε) : Nat → List Nat → List Nat → List Nat
  | 0, _, _ => []
  | depth + 1, seen, level =>
      match sketch.discover seen level with
      | [] => []
      | found => found ++ sweep sketch depth (seen ++ found) found

/-- The nodes from which an edge or more lead to `start`, the nearest first.  Every level but the
last finds a node, so there are no more levels than slots. -/
def reverseReachable (sketch : Sketch ν ε) (start : Nat) : List Nat :=
  sketch.sweep sketch.slots.length [] [start]

end Sketch

/-! ## The end of construction -/

structure Frozen (ν ε : Type) where
  indices : List Nat
  graph : Digraph indices.length ν ε

def position? (items : List Nat) (item : Nat) : Option (Fin items.length) :=
  StackFlow.node? items.length (items.idxOf item)

namespace Frozen

variable {ν ε : Type}

abbrev size (frozen : Frozen ν ε) : Nat :=
  frozen.indices.length

def node? (frozen : Frozen ν ε) (index : Nat) : Option (Fin frozen.size) :=
  position? frozen.indices index

end Frozen

namespace Sketch

variable {ν ε : Type}

def denseEdge (indices : List Nat) (edge : Edge Nat ε) :
    Except Fault (Edge (Fin indices.length) ε) := do
  let source ← Fault.require (position? indices edge.source)
  let target ← Fault.require (position? indices edge.target)
  return ⟨source, target, edge.label⟩

def freeze (sketch : Sketch ν ε) : Except Fault (Frozen ν ε) := do
  let edges ← (sketch.indices.flatMap sketch.outEdges).mapM (denseEdge sketch.indices)
  return {
    indices := sketch.indices
    graph := {
      labels := ⟨(sketch.nodes.map Prod.snd).toArray, by simp [indices]⟩
      edges } }

end Sketch

end StackFlow
