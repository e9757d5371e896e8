import StackFlow.Proofs.Frontier

/-!
# Immediate dominators

The parent of a node in the finished tree is the nearest of its strict dominators: the one that all
the others dominate.  The walk to the root lists the dominators of a node once, from the nearest to
the furthest, and the edges of the tree give every node that can be reached its one parent.
-/

namespace StackFlow

variable {n : Nat} {ν ε : Type}

namespace Parents

variable {succ : Fin n → List (Fin n)} {root : Fin n} {order : List (Fin n)}
  {number : Fin n → Nat} {parents : Parents n} {node parent : Fin n}

/-! ## The walk to the root -/

theorem pairwise_climb (numbering : Numbering root order number)
    (tree : IsTree root order number parents) (steps : Nat) (node : Fin n)
    (enough : n ≤ steps + number node) :
    (parents.climb steps node).Pairwise fun lower upper =>
      upper ≠ lower ∧ parents.Climbs lower upper := by
  induction steps generalizing node with
  | zero => simp [climb]
  | succ steps ih =>
      cases get : parents.get node with
      | none => simp [climb, get]
      | some parent =>
          rcases tree.climb_cases get steps with ⟨-, walk⟩ | ⟨-, rises, walk⟩
          · simp [walk]
          · rw [walk, List.pairwise_cons]
            refine ⟨fun upper member => ?_, ih parent (by omega)⟩
            have climbs := ((mem_climb_iff numbering tree steps parent upper (by omega)).1 member).2
            have le := tree.number_le_of_climbs climbs
            refine ⟨?_, .head get climbs⟩
            rintro rfl
            omega

theorem head?_climb {steps : Nat} (some_step : 0 < steps) (holds : parents.Holds node) :
    (parents.climb steps node).head? = some node := by
  obtain ⟨parent, get⟩ := holds.exists_get
  cases steps with
  | zero => omega
  | succ steps => simp [climb, get]

theorem getLast?_climb (numbering : Numbering root order number)
    (tree : IsTree root order number parents) (steps : Nat) (node : Fin n)
    (enough : n ≤ steps + number node) (holds : parents.Holds node) :
    (parents.climb steps node).getLast? = some root := by
  induction steps generalizing node with
  | zero =>
      have lt := numbering.lt node (tree.holds_mem node holds)
      omega
  | succ steps ih =>
      obtain ⟨parent, get⟩ := holds.exists_get
      rcases tree.climb_cases get steps with ⟨-, walk⟩ | ⟨-, rises, walk⟩
      · simp [walk]
      · have rest := ih parent (by omega) (tree.holds_parent node parent get)
        simp [walk, List.getLast?_cons, rest]

end Parents

/-! ## The nearest of the dominators -/

def IsNearest (dominates : Fin n → Fin n → Prop) (nearest node : Fin n) : Prop :=
  (nearest ≠ node ∧ dominates nearest node) ∧
    ∀ other, other ≠ node → dominates other node → dominates other nearest

namespace Parents.IsDominatorTree

variable {succ : Fin n → List (Fin n)} {root : Fin n} {order : List (Fin n)}
  {number : Fin n → Nat} {parents : Parents n} {node parent : Fin n}
  (tree : IsDominatorTree succ root order number parents)

include tree

theorem isNearest_parent (inner : node ≠ root) (get : parents.get node = some parent) :
    IsNearest (Dominates succ root) parent node := by
  refine ⟨(tree.climbs_parent_iff inner get).1 (.refl parent), fun other ne dominates => ?_⟩
  have climbs := (tree.climbs_parent_iff inner get).2 ⟨ne, dominates⟩
  exact (tree.climbs_iff parent other (tree.holds_parent node parent get)).1 climbs

theorem get_eq_some_iff_isNearest (reached : Reaches succ root node) (inner : node ≠ root) :
    parents.get node = some parent ↔ IsNearest (Dominates succ root) parent node := by
  refine ⟨tree.isNearest_parent inner, fun nearest => ?_⟩
  obtain ⟨stored, get⟩ := ((tree.holds_iff node).2 reached).exists_get
  have found := tree.isNearest_parent inner get
  -- two nearest dominators dominate each other
  have up : Dominates succ root parent stored := found.2 parent nearest.1.1 nearest.1.2
  have down : Dominates succ root stored parent := nearest.2 stored found.1.1 found.1.2
  have same : parent = stored := tree.climbs_antisymm
    ((tree.climbs_iff stored parent ((tree.holds_iff stored).2 up.1)).2 up)
    ((tree.climbs_iff parent stored ((tree.holds_iff parent).2 down.1)).2 down)
  rw [get, same]

end Parents.IsDominatorTree

/-! ## The finished trees -/

structure DominatorTree.Describes (tree : DominatorTree n) (root : Fin n)
    (reached : Fin n → Prop) (dominates : Fin n → Fin n → Prop) : Prop where
  parent_none_iff : ∀ node, tree.parent? node = none ↔ ¬ reached node
  parent_root : tree.parent? root = some root
  parent_some_iff : ∀ node parent, reached node → node ≠ root →
    (tree.parent? node = some parent ↔ IsNearest dominates parent node)
  mem_chain_iff : ∀ node dominator, dominator ∈ tree.chain node ↔ dominates dominator node
  chain_nodup : ∀ node, (tree.chain node).Nodup
  chain_starts : ∀ node, reached node → (tree.chain node).head? = some node
  chain_ends : ∀ node, reached node → (tree.chain node).getLast? = some root
  chain_rises : ∀ node, (tree.chain node).Pairwise fun lower upper =>
    upper ≠ lower ∧ dominates upper lower
  mem_edges_iff : ∀ parent child, (parent, child) ∈ tree.edges ↔
    reached child ∧ child ≠ root ∧ tree.parent? child = some parent
  children_nodup : (tree.edges.map Prod.snd).Nodup

namespace DominatorTree

variable {tree : DominatorTree n} {parent child : Fin n}

theorem edges_eq (tree : DominatorTree n) :
    tree.edges = (List.finRange n).filterMap fun child =>
      ((tree.parent? child).filter fun parent => parent ≠ child).map fun parent =>
        (parent, child) := by
  unfold edges
  congr 1
  funext child
  cases tree.parent? child with
  | none => rfl
  | some parent => by_cases same : parent = child <;> simp [same]

theorem mem_edges_iff_parent :
    (parent, child) ∈ tree.edges ↔ tree.parent? child = some parent ∧ parent ≠ child := by
  simp [edges_eq, Option.filter_eq_some_iff]

theorem nodup_children (tree : DominatorTree n) : (tree.edges.map Prod.snd).Nodup := by
  rw [edges_eq]
  refine List.pairwise_map.2 (List.pairwise_filterMap.2 ((List.nodup_finRange n).imp ?_))
  intro first second ne edge hedge other hother
  obtain ⟨parent, -, rfl⟩ := Option.map_eq_some_iff.1 hedge
  obtain ⟨parent, -, rfl⟩ := Option.map_eq_some_iff.1 hother
  exact ne

section Compute

variable (graph : Digraph n ν ε) (root : Fin n)

theorem mem_chain_iff_dominates (node dominator : Fin n) :
    dominator ∈ (compute graph root).chain node ↔ Dominates graph.succ root dominator node :=
  List.contains_iff_mem.symm.trans (dominates_iff graph root dominator node)

theorem pairwise_chain (node : Fin n) :
    ((compute graph root).chain node).Pairwise fun lower upper =>
      upper ≠ lower ∧ Dominates graph.succ root upper lower := by
  have tree := graph.isDominatorTree root
  have walk := Parents.pairwise_climb tree.numbering tree.toIsTree n node (by omega)
  refine walk.imp_of_mem fun {lower upper} member _ above => ⟨above.1, ?_⟩
  obtain ⟨holds, climbs⟩ := (Parents.mem_chain_iff tree.numbering tree.toIsTree).1 member
  exact (tree.climbs_iff lower upper (tree.holds_of_climbs climbs holds)).1 above.2

theorem mem_edges_compute_iff (parent child : Fin n) :
    (parent, child) ∈ (compute graph root).edges ↔
      Reaches graph.succ root child ∧ child ≠ root ∧
        (compute graph root).parent? child = some parent := by
  have tree := graph.isDominatorTree root
  rw [mem_edges_iff_parent]
  constructor
  · rintro ⟨get, ne⟩
    refine ⟨(tree.holds_iff child).1 (.of_get get), ?_, get⟩
    rintro rfl
    exact ne (Option.some.inj (get.symm.trans tree.root_get))
  · rintro ⟨-, inner, get⟩
    exact ⟨get, (tree.isNearest_parent inner get).1.1⟩

theorem compute_describes :
    (compute graph root).Describes root (Reaches graph.succ root) (Dominates graph.succ root) := by
  have tree := graph.isDominatorTree root
  exact {
    parent_none_iff := fun node => by
      rw [← tree.holds_iff node, Parents.Holds, Bool.not_eq_true, Option.isSome_eq_false_iff,
        Option.isNone_iff_eq_none]
      rfl
    parent_root := tree.root_get
    parent_some_iff := fun node parent reached inner =>
      tree.get_eq_some_iff_isNearest reached inner
    mem_chain_iff := mem_chain_iff_dominates graph root
    chain_nodup := fun node => (pairwise_chain graph root node).imp fun above => above.1.symm
    chain_starts := fun node reached =>
      Parents.head?_climb node.pos ((tree.holds_iff node).2 reached)
    chain_ends := fun node reached =>
      Parents.getLast?_climb tree.numbering tree.toIsTree n node (by omega)
        ((tree.holds_iff node).2 reached)
    chain_rises := pairwise_chain graph root
    mem_edges_iff := mem_edges_compute_iff graph root
    children_nodup := nodup_children _ }

end Compute

end DominatorTree

/-- The forward tree describes the dominators that paths from the entry define, the backward tree
the post-dominators that paths to the exit define: a node that can be reached has as its parent the
nearest of its strict dominators, its chain lists its dominators once and from the nearest to the
root, and its parent is the source of the one edge that leads to it. -/
theorem Dominators.compute_describes_dominators (graph : Digraph n ν ε) (entry exit : Fin n) :
    (compute graph entry exit).forward.Describes entry (Reaches graph.succ entry)
      (Dominates graph.succ entry) ∧
    (compute graph entry exit).backward.Describes exit (fun node => Reaches graph.succ node exit)
      (PostDominates graph.succ exit) := by
  refine ⟨DominatorTree.compute_describes graph entry, ?_⟩
  have reached : Reaches graph.reverse.succ exit = fun node => Reaches graph.succ node exit :=
    funext fun node => propext Digraph.reaches_reverse_iff
  have dominates : Dominates graph.reverse.succ exit = PostDominates graph.succ exit :=
    funext fun first => funext fun second => propext Digraph.dominates_reverse_iff
  have backward := DominatorTree.compute_describes graph.reverse exit
  rw [reached, dominates] at backward
  exact backward

end StackFlow
