import StackFlow.Graph.Digraph

/-!
# Paths

A path is given with the list of its nodes, from the first to the last.  It follows the successors
of each node, so that paths of a graph and of its reverse are paths of the same kind.
-/

namespace StackFlow

variable {n : Nat}

inductive Path (succ : Fin n → List (Fin n)) : Fin n → Fin n → List (Fin n) → Prop where
  | single (node : Fin n) : Path succ node node [node]
  | cons {source next target : Fin n} {nodes : List (Fin n)} (edge : next ∈ succ source)
      (tail : Path succ next target nodes) : Path succ source target (source :: nodes)

def Reaches (succ : Fin n → List (Fin n)) (source target : Fin n) : Prop :=
  ∃ nodes, Path succ source target nodes

/-- The node can be reached from the root, and every path there contains the dominator. -/
def Dominates (succ : Fin n → List (Fin n)) (root dominator node : Fin n) : Prop :=
  Reaches succ root node ∧ ∀ nodes, Path succ root node nodes → dominator ∈ nodes

/-- The exit can be reached from the node, and every path there contains the dominator. -/
def PostDominates (succ : Fin n → List (Fin n)) (exit dominator node : Fin n) : Prop :=
  Reaches succ node exit ∧ ∀ nodes, Path succ node exit nodes → dominator ∈ nodes

namespace Path

variable {succ : Fin n → List (Fin n)} {source middle target : Fin n} {nodes : List (Fin n)}

theorem source_mem (path : Path succ source target nodes) : source ∈ nodes := by
  cases path <;> exact List.mem_cons_self

theorem target_mem (path : Path succ source target nodes) : target ∈ nodes := by
  induction path with
  | single node => exact List.mem_singleton_self node
  | cons edge tail ih => exact List.mem_cons_of_mem _ ih

theorem append {more : List (Fin n)} (first : Path succ source middle nodes)
    (second : Path succ middle target more) : Path succ source target (nodes ++ more.tail) := by
  induction first with
  | single node =>
      cases second with
      | single => exact .single _
      | cons edge tail => exact .cons edge tail
  | cons edge tail ih => exact .cons edge (ih second)

theorem snoc (path : Path succ source middle nodes) (edge : target ∈ succ middle) :
    Path succ source target (nodes ++ [target]) := by
  simpa using path.append (.cons edge (.single target))

theorem cases_snoc (path : Path succ source target nodes) :
    (source = target ∧ nodes = [target]) ∨
      ∃ previous start, Path succ source previous start ∧ target ∈ succ previous ∧
        nodes = start ++ [target] := by
  induction path with
  | single node => exact .inl ⟨rfl, rfl⟩
  | cons edge tail ih =>
      rcases ih with ⟨rfl, rfl⟩ | ⟨previous, start, path, last, rfl⟩
      · exact .inr ⟨_, _, .single _, edge, rfl⟩
      · exact .inr ⟨previous, _, .cons edge path, last, rfl⟩

theorem reverse {pred : Fin n → List (Fin n)}
    (converse : ∀ node previous, previous ∈ pred node ↔ node ∈ succ previous)
    (path : Path succ source target nodes) : Path pred target source nodes.reverse := by
  induction path with
  | single node => exact .single node
  | cons edge tail ih =>
      rw [List.reverse_cons]
      exact ih.snoc ((converse _ _).2 edge)

end Path

namespace Reaches

variable {succ : Fin n → List (Fin n)} {source middle target : Fin n}

theorem refl (node : Fin n) : Reaches succ node node :=
  ⟨_, .single node⟩

theorem head (edge : middle ∈ succ source) (rest : Reaches succ middle target) :
    Reaches succ source target := by
  obtain ⟨_, path⟩ := rest
  exact ⟨_, .cons edge path⟩

theorem tail (start : Reaches succ source middle) (edge : target ∈ succ middle) :
    Reaches succ source target := by
  obtain ⟨_, path⟩ := start
  exact ⟨_, path.snoc edge⟩

theorem mem_of_closed {members : Fin n → Prop} (reaches : Reaches succ source target)
    (start : members source) (closed : ∀ node, members node → ∀ next ∈ succ node, members next) :
    members target := by
  obtain ⟨nodes, path⟩ := reaches
  induction path with
  | single node => exact start
  | cons edge tail ih => exact ih (closed _ start _ edge)

end Reaches

namespace Dominates

variable {succ : Fin n → List (Fin n)} {root dominator node : Fin n}

theorem of_edge {previous : Fin n} (dominates : Dominates succ root dominator node)
    (ne : dominator ≠ node) (reaches : Reaches succ root previous)
    (edge : node ∈ succ previous) : Dominates succ root dominator previous := by
  refine ⟨reaches, fun nodes path => ?_⟩
  have member := dominates.2 _ (path.snoc edge)
  simpa [ne] using member

end Dominates

namespace Digraph

variable {ν ε : Type}

theorem path_reverse_iff {graph : Digraph n ν ε} {source target : Fin n} {nodes : List (Fin n)} :
    Path graph.reverse.succ target source nodes ↔ Path graph.succ source target nodes.reverse := by
  rw [succ_reverse]
  constructor
  · exact fun path => path.reverse fun node previous => mem_pred_iff_mem_succ.symm
  · intro path
    have back : Path graph.pred target source nodes.reverse.reverse :=
      path.reverse fun node previous => mem_pred_iff_mem_succ
    rwa [List.reverse_reverse] at back

theorem reaches_reverse_iff {graph : Digraph n ν ε} {source target : Fin n} :
    Reaches graph.reverse.succ target source ↔ Reaches graph.succ source target := by
  constructor
  · rintro ⟨nodes, path⟩
    exact ⟨_, path_reverse_iff.1 path⟩
  · rintro ⟨nodes, path⟩
    exact ⟨nodes.reverse, path_reverse_iff.2 (by rwa [List.reverse_reverse])⟩

theorem dominates_reverse_iff {graph : Digraph n ν ε} {exit first second : Fin n} :
    Dominates graph.reverse.succ exit first second ↔
      PostDominates graph.succ exit first second := by
  refine and_congr reaches_reverse_iff ⟨fun every nodes path => ?_, fun every nodes path => ?_⟩
  · have back : Path graph.reverse.succ exit second nodes.reverse :=
      path_reverse_iff.2 (by rwa [List.reverse_reverse])
    exact List.mem_reverse.1 (every _ back)
  · exact List.mem_reverse.1 (every _ (path_reverse_iff.1 path))

end Digraph

end StackFlow
