/-!
# Labelled edges

An edge is a triple, and the type of its ends is free.
-/

namespace StackFlow

structure Edge (α ε : Type) where
  source : α
  target : α
  label : ε
  deriving DecidableEq, Repr

namespace Edge

variable {α ε : Type}

def flip (edge : Edge α ε) : Edge α ε :=
  ⟨edge.target, edge.source, edge.label⟩

@[simp] theorem flip_source (edge : Edge α ε) : edge.flip.source = edge.target := rfl

@[simp] theorem flip_target (edge : Edge α ε) : edge.flip.target = edge.source := rfl

@[simp] theorem flip_flip (edge : Edge α ε) : edge.flip.flip = edge := rfl

end Edge

end StackFlow
