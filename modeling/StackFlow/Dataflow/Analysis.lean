import StackFlow.Fault
import StackFlow.Graph.Digraph

/-!
# Dataflow analyses

An analysis runs with the edges or against them.  The near side of a node is the one at which
states arrive, its input in a forward analysis and its output in a backward one, and the far side
is the one at which the transferred state leaves.  The state on the near side is the join of what
the neighbours contribute.

No law is asked of the join or the transfer here.  `Analysis.isFixedPoint` says that joining and
transferring once more changes nothing at any node but the boundary.  `Analysis.testFixedPoint`
decides the same on states of limited size, where a transferred state may not fit; the two agree
when every transferred state does.
-/

namespace StackFlow

structure Lattice (σ : Type) where
  init : σ
  join : σ → σ → σ

def Lattice.joinAll {σ : Type} (lattice : Lattice σ) (states : List σ) : σ :=
  states.foldl lattice.join lattice.init

inductive Direction where
  | forward
  | backward
  deriving DecidableEq, Repr

inductive AnalysisError where
  | nonTermination (maxSteps : Nat)
  | missingDirection
  deriving DecidableEq, Repr

def AnalysisError.message : AnalysisError → String
  | .nonTermination maxSteps => s!"dataflow analysis did not converge within {maxSteps} steps"
  | .missingDirection => "dataflow analysis was run without a direction"

structure States (n : Nat) (σ : Type) where
  input : Vector σ n
  output : Vector σ n
  deriving DecidableEq

namespace States

variable {n : Nat} {σ : Type}

def init (n : Nat) (state : σ) : States n σ :=
  ⟨Vector.replicate n state, Vector.replicate n state⟩

def near (states : States n σ) (direction : Direction) (node : Fin n) : σ :=
  match direction with
  | .forward => states.input.get node
  | .backward => states.output.get node

def far (states : States n σ) (direction : Direction) (node : Fin n) : σ :=
  match direction with
  | .forward => states.output.get node
  | .backward => states.input.get node

def setNear (states : States n σ) (direction : Direction) (node : Fin n) (state : σ) :
    States n σ :=
  match direction with
  | .forward => { states with input := states.input.set node state node.isLt }
  | .backward => { states with output := states.output.set node state node.isLt }

def setFar (states : States n σ) (direction : Direction) (node : Fin n) (state : σ) :
    States n σ :=
  match direction with
  | .forward => { states with output := states.output.set node state node.isLt }
  | .backward => { states with input := states.input.set node state node.isLt }

end States

structure Analysis (n : Nat) (ν ε σ : Type) where
  graph : Digraph n ν ε
  entry : Fin n
  exit : Fin n
  lattice : Lattice σ
  transfer : Fin n → σ → σ
  /-- Whether a state can be stored. -/
  fits : σ → Bool := fun _ => true

namespace Analysis

variable {n : Nat} {ν ε σ : Type}

/-- The node whose near side always holds the initial state. -/
def source (analysis : Analysis n ν ε σ) : Direction → Fin n
  | .forward => analysis.entry
  | .backward => analysis.exit

/-- The node that is not processed, and whose near side is computed at the very end. -/
def boundary (analysis : Analysis n ν ε σ) : Direction → Fin n
  | .forward => analysis.exit
  | .backward => analysis.entry

def incoming (analysis : Analysis n ν ε σ) : Direction → Fin n → List (Fin n)
  | .forward => analysis.graph.pred
  | .backward => analysis.graph.succ

def outgoing (analysis : Analysis n ν ε σ) : Direction → Fin n → List (Fin n)
  | .forward => analysis.graph.succ
  | .backward => analysis.graph.pred

/-- The state that a neighbour contributes.  Against the edges, the exit contributes the initial
state. -/
def contribution (analysis : Analysis n ν ε σ) (direction : Direction) (states : States n σ)
    (neighbour : Fin n) : σ :=
  match direction with
  | .forward => states.output.get neighbour
  | .backward =>
      if neighbour = analysis.exit then analysis.lattice.init else states.input.get neighbour

def joined (analysis : Analysis n ν ε σ) (direction : Direction) (states : States n σ)
    (node : Fin n) : σ :=
  if node = analysis.source direction then
    analysis.lattice.init
  else
    analysis.lattice.joinAll <|
      (analysis.incoming direction node).map (analysis.contribution direction states)

variable [DecidableEq σ]

def isFixedPoint (analysis : Analysis n ν ε σ) (direction : Direction) (states : States n σ) :
    Bool :=
  (List.finRange n).all fun node =>
    node = analysis.boundary direction ||
      (analysis.joined direction states node = states.near direction node &&
        analysis.transfer node (analysis.joined direction states node) =
          states.far direction node)

/-- The fixed-point test of the given nodes in turn.  It ends at the first node that fails, and
with an overflow at the first whose transferred state does not fit. -/
def testNodes (analysis : Analysis n ν ε σ) (direction : Direction) (states : States n σ) :
    List (Fin n) → Except Fault Bool
  | [] => .ok true
  | node :: rest =>
      if node = analysis.boundary direction then
        analysis.testNodes direction states rest
      else
        let near := analysis.joined direction states node
        let far := analysis.transfer node near
        if near ≠ states.near direction node then
          .ok false
        else if !analysis.fits far then
          .error .overflow
        else if far ≠ states.far direction node then
          .ok false
        else
          analysis.testNodes direction states rest

def testFixedPoint (analysis : Analysis n ν ε σ) (direction : Direction) (states : States n σ) :
    Except Fault Bool :=
  analysis.testNodes direction states (List.finRange n)

theorem testNodes_eq_ok (analysis : Analysis n ν ε σ) (direction : Direction)
    (states : States n σ)
    (fits : ∀ node state, analysis.fits (analysis.transfer node state) = true)
    (nodes : List (Fin n)) :
    analysis.testNodes direction states nodes =
      .ok (nodes.all fun node =>
        node = analysis.boundary direction ||
          (analysis.joined direction states node = states.near direction node &&
            analysis.transfer node (analysis.joined direction states node) =
              states.far direction node)) := by
  induction nodes with
  | nil => rfl
  | cons node rest ih =>
      unfold testNodes
      by_cases boundary : node = analysis.boundary direction
      · simp [boundary, ih]
      · by_cases near : analysis.joined direction states node = states.near direction node
        · by_cases far : analysis.transfer node (states.near direction node) =
              states.far direction node
          · have stored : analysis.fits (states.far direction node) = true :=
              far ▸ fits node (states.near direction node)
            simp [boundary, near, far, stored, ih]
          · simp [boundary, near, far, fits]
        · simp [boundary, near]

theorem testFixedPoint_eq_ok (analysis : Analysis n ν ε σ) (direction : Direction)
    (states : States n σ)
    (fits : ∀ node state, analysis.fits (analysis.transfer node state) = true) :
    analysis.testFixedPoint direction states = .ok (analysis.isFixedPoint direction states) :=
  analysis.testNodes_eq_ok direction states fits (List.finRange n)

def checkFixedPoint (analysis : Analysis n ν ε σ) (direction : Option Direction)
    (states : States n σ) : Except AnalysisError Bool :=
  match direction with
  | none => .error .missingDirection
  | some direction => .ok (analysis.isFixedPoint direction states)

end Analysis

end StackFlow
