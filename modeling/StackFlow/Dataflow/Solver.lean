import StackFlow.Dataflow.Analysis

/-!
# Worklist solution of a dataflow analysis

The worklist is first in, first out, and holds a node at most once.  A node whose far state
changes puts its neighbours on the list.  The run ends when the list is empty, or when it has
processed as many nodes as it may and the list is not empty yet.
-/

namespace StackFlow

structure Work (n : Nat) (σ : Type) where
  states : States n σ
  queue : List (Fin n)
  deriving DecidableEq

namespace Analysis

variable {n : Nat} {ν ε σ : Type} [DecidableEq σ]

def start (analysis : Analysis n ν ε σ) (direction : Direction) : Work n σ :=
  { states := .init n analysis.lattice.init
    queue := (List.finRange n).filter fun node => node ≠ analysis.boundary direction }

/-- The queue with those of the given nodes that are neither on it nor the boundary. -/
def enqueue (boundary : Fin n) (queue nodes : List (Fin n)) : List (Fin n) :=
  nodes.foldl
    (fun queue node =>
      if node = boundary ∨ node ∈ queue then queue else queue ++ [node])
    queue

def process (analysis : Analysis n ν ε σ) (direction : Direction) (states : States n σ)
    (node : Fin n) (rest : List (Fin n)) : Work n σ :=
  let near := analysis.joined direction states node
  let states := states.setNear direction node near
  let far := analysis.transfer node near
  if far = states.far direction node then
    ⟨states, rest⟩
  else
    ⟨states.setFar direction node far,
      enqueue (analysis.boundary direction) rest (analysis.outgoing direction node)⟩

def run (analysis : Analysis n ν ε σ) (direction : Direction) :
    Nat → Work n σ → Option (States n σ)
  | _, ⟨states, []⟩ => some states
  | 0, ⟨_, _ :: _⟩ => none
  | steps + 1, ⟨states, node :: rest⟩ =>
      analysis.run direction steps (analysis.process direction states node rest)

/-- The converged states, with the near side of the boundary filled in. -/
def solve (analysis : Analysis n ν ε σ) (direction : Direction) (maxSteps : Nat) :
    Except AnalysisError (States n σ) :=
  match analysis.run direction maxSteps (analysis.start direction) with
  | none => .error (.nonTermination maxSteps)
  | some states =>
      let boundary := analysis.boundary direction
      .ok (states.setNear direction boundary (analysis.joined direction states boundary))

def analyze (analysis : Analysis n ν ε σ) (direction : Option Direction) (maxSteps : Nat) :
    Except AnalysisError (States n σ) :=
  match direction with
  | none => .error .missingDirection
  | some direction => analysis.solve direction maxSteps

end Analysis

end StackFlow
