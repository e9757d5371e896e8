import StackFlow.Block.Basic

/-!
# Nodes of a control-flow graph

A node stands for the entry, for the exit, or for a block.
-/

namespace StackFlow

inductive NodeKind where
  | entry
  | implicitReturn
  | plain
  | loop
  | branch
  | except
  | condition
  deriving DecidableEq, Repr

namespace NodeKind

def all : List NodeKind :=
  [entry, implicitReturn, plain, loop, branch, except, condition]

def ofBlock : BlockKind → NodeKind
  | .entry => entry
  | .implicitReturn => implicitReturn
  | .unclassified => plain
  | .loop => loop
  | .conditional => branch
  | .exceptionHandler => except

def text : NodeKind → String
  | entry => "entry"
  | implicitReturn => "implicit-return"
  | plain => "block"
  | loop => "loop"
  | branch => "if"
  | except => "except"
  | condition => "condition"

end NodeKind

/-- The kind of a node and the number of its block.  Only the entry and the exit have no block. -/
structure Node where
  kind : NodeKind
  block : Option Nat
  deriving DecidableEq, Repr

end StackFlow
