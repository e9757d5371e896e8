import StackFlow.DefUse.Chains

/-!
# Processors

Processors are the analyses that a pipeline runs on the scopes of a program.

A subject is a scope with its control-flow graph and the results attached to it so far.  Dominators
follow from the graph and are not attached; definition-use chains are.
-/

namespace StackFlow

structure Subject where
  scope : Scope
  flow : FlowGraph
  chains : Option Chains := none

namespace Subject

def ofScope (options : Options) (scope : Scope) : Except Fault Subject := do
  return { scope, flow := ← FlowGraph.build scope options }

def name (subject : Subject) : String :=
  subject.scope.name

end Subject

inductive Cause where
  | chains (scope : String) (error : AnalysisError)
  | other (messages : List String)
  deriving DecidableEq, Repr

-- The outermost message comes first.
def Cause.messages : Cause → List String
  | .chains scope error => [s!"computing def-use chains of {scope}", error.message]
  | .other messages => messages

/-- `before` and `after` are what the processor notes around all subjects, `observe` what it notes
when it takes up one of them. -/
structure Processor where
  name : String
  process : Options → Subject → Except Cause Subject := fun _ subject => .ok subject
  before : List Subject → List String := fun _ => []
  observe : Subject → List String := fun _ => []
  after : List Subject → List String := fun _ => []
  dump : List Subject → String := fun _ => ""

namespace Processor

/-! ## Dominators -/

def dumpDominators (subject : Subject) : String :=
  let flow := subject.flow
  let dominators := flow.dominators
  let parent : Option (Fin flow.size) → String
    | some node => s!"n{node}"
    | none => "-"
  let line (node : Fin flow.size) : String :=
    let idom := parent (dominators.forward.parent? node)
    let ipdom := parent (dominators.backward.parent? node)
    s!"  n{node} {flow.nodeText node}: idom {idom} ipdom {ipdom}\n"
  s!"{subject.name}:\n" ++ String.join ((List.finRange flow.size).map line)

def dominators : Processor where
  name := "dominators"
  dump subjects := String.join (subjects.map dumpDominators)

/-! ## Definition-use chains -/

def attachChains (options : Options) (subject : Subject) : Except Cause Subject :=
  match Chains.compute subject.flow options.maxSteps with
  | .ok chains => .ok { subject with chains := some chains }
  | .error error => .error (.chains subject.name error)

def dumpChains (scope : String) (chains : Chains) : String :=
  let line (name : String) : Nat × SortedSet Nat → String := fun (definition, uses) =>
    let blocks := String.intercalate ", " (uses.toList.map fun block => s!"b{block}")
    s!"  {name} defined in b{definition} used in {blocks}\n"
  let links := chains.definitions.entries.flatMap fun (name, inner) =>
    inner.entries.map (line name)
  let escaped :=
    if chains.escaped.isEmpty then
      ""
    else
      "  escaped: " ++ String.intercalate ", " chains.escaped.toList ++ "\n"
  s!"{scope}:\n" ++ String.join links ++ escaped

def defUse : Processor where
  name := "def_use"
  process := attachChains
  dump subjects := String.join <| subjects.filterMap fun subject =>
    subject.chains.map (dumpChains subject.name)

end Processor

end StackFlow
