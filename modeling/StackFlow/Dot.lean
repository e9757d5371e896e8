import StackFlow.FlowGraph.Basic

/-!
# Drawings of graphs

Graphs are drawn in the language of the graphviz tools.
-/

namespace StackFlow

namespace Dot

def draw (nodes : List String) (edges : List (Nat × Nat × String)) : String :=
  let nodeLine : String × Nat → String := fun (label, number) =>
    s!"    {number} [ label = \"{label}\" ]\n"
  let edgeLine : Nat × Nat × String → String := fun (source, target, label) =>
    s!"    {source} -> {target} [ label = \"{label}\" ]\n"
  "digraph \x7b\n" ++ String.join (nodes.zipIdx.map nodeLine) ++
    String.join (edges.map edgeLine) ++ "\x7d\n"

end Dot

namespace FlowGraph

def nodeTexts (flow : FlowGraph) : List String :=
  (List.finRange flow.size).map flow.nodeText

def toDot (flow : FlowGraph) : String :=
  Dot.draw flow.nodeTexts <|
    flow.graph.edges.map fun edge => (edge.source.val, edge.target.val, edge.label.text)

def treeToDot (flow : FlowGraph) (tree : DominatorTree flow.size) : String :=
  Dot.draw flow.nodeTexts <| tree.edges.map fun (parent, child) => (parent.val, child.val, "")

end FlowGraph

end StackFlow
