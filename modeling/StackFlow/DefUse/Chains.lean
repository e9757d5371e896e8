import StackFlow.DefUse.Reaching

/-!
# Definition-use chains

The chains are read off the states at the inputs of the nodes: every block is run again from there,
and each use is linked to the blocks of the definitions that reach it.  A variable with a use that
no definition reaches escapes.
-/

namespace StackFlow

/-- The states at the inputs of the nodes below `count`, which need not be those of a graph.  A node
is in the initial state until another is set. -/
structure InputTable where
  count : Nat
  changed : SortedMap Nat Reaching := ∅
  deriving DecidableEq

namespace InputTable

def set (table : InputTable) (node : Nat) (state : Reaching) : Except Fault InputTable :=
  if node < table.count then
    .ok { table with changed := table.changed.insert node state }
  else
    .error .missing

def take (table : InputTable) (size : Nat) : List Reaching :=
  (List.range (min table.count size)).map fun node => (table.changed.get? node).getD {}

end InputTable

inductive Sighting where
  | link (name : String) (definition use : Nat)
  | escape (name : String)
  deriving DecidableEq, Repr

/-- `definitions` leads from a variable and a defining block to the blocks that use the definition,
`useSites` from a variable and a using block to the blocks whose definitions reach it. -/
structure Chains where
  definitions : SortedMap String (SortedMap Nat (SortedSet Nat)) := ∅
  useSites : SortedMap String (SortedMap Nat (SortedSet Nat)) := ∅
  escaped : SortedSet String := ∅
  deriving DecidableEq

namespace Chains

def addPair (map : SortedMap String (SortedMap Nat (SortedSet Nat))) (name : String)
    (first second : Nat) : SortedMap String (SortedMap Nat (SortedSet Nat)) :=
  let inner := (map.get? name).getD ∅
  map.insert name (inner.insertWith (· ∪ ·) first (.singleton second))

def add (chains : Chains) : Sighting → Chains
  | .link name definition use =>
      { chains with
        definitions := addPair chains.definitions name definition use
        useSites := addPair chains.useSites name use definition }
  | .escape name => { chains with escaped := chains.escaped.insert name }

def sightingsOf (flow : FlowGraph) (block : Nat) (state : Reaching) (name : String) :
    List Sighting :=
  match state.generated.get? name with
  | none => [.escape name]
  | some addresses =>
      if addresses.isEmpty then
        [.escape name]
      else
        (addresses.toList.filterMap flow.blockAt?).map fun definition =>
          .link name definition block

def replay (flow : FlowGraph) (block : Nat) : Reaching → List Statement → List Sighting
  | _, [] => []
  | state, statement :: rest =>
      statement.uses.flatMap (sightingsOf flow block state) ++
        replay flow block (state.step statement) rest

def sightingsAt (flow : FlowGraph) (number : Nat) (state : Reaching) : List Sighting :=
  match node? flow.size number with
  | none => []
  | some node =>
      match flow.blockOf? node with
      | none => []
      | some block => replay flow block state (flow.statementsOf node)

def ofInputs (flow : FlowGraph) (inputs : List Reaching) : Chains :=
  (inputs.zipIdx.flatMap fun (state, number) => sightingsAt flow number state).foldl add {}

/-- The chains from a table of states.  Nodes that the graph does not have are passed over. -/
def ofTable (flow : FlowGraph) (table : InputTable) : Chains :=
  ofInputs flow (table.take flow.size)

def compute (flow : FlowGraph) (maxSteps : Nat) : Except AnalysisError Chains := do
  let states ← flow.reaching.solve .forward maxSteps
  return ofInputs flow states.input.toList

def usesOf? (chains : Chains) (name : String) (definition : Nat) : Option (SortedSet Nat) := do
  let inner ← chains.definitions.get? name
  inner.get? definition

def definitionsReaching? (chains : Chains) (name : String) (use : Nat) :
    Option (SortedSet Nat) := do
  let inner ← chains.useSites.get? name
  inner.get? use

def isEscaped (chains : Chains) (name : String) : Bool :=
  chains.escaped.contains name

end Chains

end StackFlow
