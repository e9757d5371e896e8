import StackFlow.Proofs.Dominance

/-!
# Dominance frontiers and paths

The walk from the predecessors of a node up to its parent meets the nodes that dominate a
predecessor and do not dominate the node strictly.  A node other than the root that has a single
predecessor in the tree has that predecessor as its parent, so leaving out such nodes leaves out
nothing.
-/

namespace StackFlow

variable {n : Nat} {ν ε : Type}

namespace Reaches

variable {succ : Fin n → List (Fin n)} {root node : Fin n}

theorem exists_edge_ne (reaches : Reaches succ root node) (ne : node ≠ root) :
    ∃ previous, Reaches succ root previous ∧ node ∈ succ previous ∧ previous ≠ node := by
  by_contra none
  have closed : ∀ other, Reaches succ root other ∧ other ≠ node →
      ∀ next ∈ succ other, Reaches succ root next ∧ next ≠ node := by
    rintro other ⟨reached, hother⟩ next edge
    refine ⟨reached.tail edge, ?_⟩
    rintro rfl
    exact none ⟨other, reached, edge, hother⟩
  exact (reaches.mem_of_closed ⟨.refl root, ne.symm⟩ closed).2 rfl

end Reaches

theorem Dominates.of_single_edge {succ : Fin n → List (Fin n)} {root node single : Fin n}
    (reaches : Reaches succ root node) (ne : node ≠ root)
    (only : ∀ previous, Reaches succ root previous → node ∈ succ previous → previous = single) :
    Dominates succ root single node := by
  refine ⟨reaches, fun nodes path => ?_⟩
  rcases path.cases_snoc with ⟨heq, -⟩ | ⟨previous, start, initial, edge, rfl⟩
  · exact absurd heq.symm ne
  · obtain rfl := only previous ⟨start, initial⟩ edge
    exact List.mem_append_left _ initial.target_mem

namespace Parents

variable {succ pred : Fin n → List (Fin n)} {root : Fin n} {order : List (Fin n)}
  {number : Fin n → Nat} {parents : Parents n} {node parent member : Fin n}

/-! ## The walk up to a given ancestor -/

theorem IsTree.not_climbs_of_number_lt (tree : IsTree root order number parents)
    (lt : number node < number parent) : ¬ parents.Climbs parent node := by
  intro climbs
  have le := tree.number_le_of_climbs climbs
  omega

theorem IsTree.climbs_antisymm (tree : IsTree root order number parents)
    (up : parents.Climbs node parent) (down : parents.Climbs parent node) : parent = node := by
  by_contra ne
  have lt := tree.number_lt_of_climbs up ne
  have le := tree.number_le_of_climbs down
  omega

theorem mem_takeWhile_climb_iff (numbering : Numbering root order number)
    (tree : IsTree root order number parents) (steps : Nat) (start top ancestor : Fin n)
    (enough : n ≤ steps + number start) (holds : parents.Holds start)
    (above : parents.Climbs start top) :
    ancestor ∈ (parents.climb steps start).takeWhile (fun runner => runner ≠ top) ↔
      parents.Climbs start ancestor ∧ ¬ parents.Climbs top ancestor := by
  induction steps generalizing start with
  | zero =>
      have lt := numbering.lt start (tree.holds_mem start holds)
      omega
  | succ steps ih =>
      obtain ⟨up, get⟩ := holds.exists_get
      by_cases heq : start = top
      · subst heq
        simp [climb, get]
      · have rest : parents.Climbs up top := (above.cases_get get).resolve_left (Ne.symm heq)
        rcases tree.climb_cases get steps with ⟨rfl, -⟩ | ⟨-, rises, walk⟩
        · exact absurd (tree.eq_root_of_climbs above).symm heq
        · have below : ¬ parents.Climbs top start := by
            have le := tree.number_le_of_climbs rest
            exact tree.not_climbs_of_number_lt (by omega)
          rw [walk, List.takeWhile_cons_of_pos (by simpa using heq), List.mem_cons,
            ih up (by omega) (tree.holds_parent _ _ get) rest, Climbs.iff_of_get get, or_and_right]
          refine or_congr_left (and_iff_left_of_imp ?_).symm
          rintro rfl
          exact below

namespace IsDominatorTree

variable (tree : IsDominatorTree succ root order number parents)

include tree

theorem climbs_parent_iff (ne : node ≠ root) (get : parents.get node = some parent) :
    parents.Climbs parent member ↔ member ≠ node ∧ Dominates succ root member node := by
  have rises := tree.rises node parent ne get
  rw [← tree.climbs_iff node member (.of_get get)]
  constructor
  · intro climbs
    refine ⟨?_, .head get climbs⟩
    rintro rfl
    exact tree.not_climbs_of_number_lt rises climbs
  · rintro ⟨other, climbs⟩
    exact (climbs.cases_get get).resolve_left other

variable (converse : ∀ node previous, previous ∈ pred node ↔ node ∈ succ previous)

include converse

theorem climbs_parent_of_pred (ne : node ≠ root) (get : parents.get node = some parent)
    {previous : Fin n} (edge : previous ∈ pred node) (holds : parents.Holds previous) :
    parents.Climbs previous parent := by
  obtain ⟨other, dominates⟩ := (tree.climbs_parent_iff ne get).1 (.refl parent)
  exact (tree.climbs_iff previous parent holds).2
    (dominates.of_edge other ((tree.holds_iff previous).1 holds) ((converse _ _).1 edge))

theorem parent_eq_of_single (ne : node ≠ root) (get : parents.get node = some parent)
    {single : Fin n} (edge : single ∈ pred node) (holds : parents.Holds single)
    (only : ∀ previous ∈ pred node, parents.Holds previous → previous = single) :
    parent = single := by
  have reaches := (tree.holds_iff node).1 (.of_get get)
  have only : ∀ previous, Reaches succ root previous → node ∈ succ previous →
      previous = single := fun previous reached edge =>
    only previous ((converse _ _).2 edge) ((tree.holds_iff previous).2 reached)
  have other : single ≠ node := by
    obtain ⟨previous, reached, edge, hprevious⟩ := reaches.exists_edge_ne ne
    exact only previous reached edge ▸ hprevious
  have up : parents.Climbs parent single :=
    (tree.climbs_parent_iff ne get).2 ⟨other, .of_single_edge reaches ne only⟩
  have down := tree.climbs_parent_of_pred converse ne get edge holds
  exact tree.climbs_antisymm down up

theorem mem_walk_iff (ne : node ≠ root) (get : parents.get node = some parent)
    {previous : Fin n} (edge : previous ∈ pred node) :
    parents.Holds previous ∧
        member ∈ (parents.chain previous).takeWhile (fun runner => runner ≠ parent) ↔
      Dominates succ root member previous ∧ ¬ parents.Climbs parent member := by
  have walk : ∀ holds : parents.Holds previous,
      member ∈ (parents.chain previous).takeWhile (fun runner => runner ≠ parent) ↔
        parents.Climbs previous member ∧ ¬ parents.Climbs parent member := fun holds =>
    mem_takeWhile_climb_iff tree.numbering tree.toIsTree n previous parent member (by omega) holds
      (tree.climbs_parent_of_pred converse ne get edge holds)
  constructor
  · rintro ⟨holds, taken⟩
    obtain ⟨climbs, below⟩ := (walk holds).1 taken
    exact ⟨(tree.climbs_iff previous member holds).1 climbs, below⟩
  · rintro ⟨dominates, below⟩
    have holds := (tree.holds_iff previous).2 dominates.1
    have climbs := (tree.climbs_iff previous member holds).2 dominates
    exact ⟨holds, (walk holds).2 ⟨climbs, below⟩⟩

theorem mem_runners_iff (ne : node ≠ root) :
    member ∈ parents.runners pred node ↔
      (∃ previous ∈ pred node, Dominates succ root member previous) ∧
        ¬ (member ≠ node ∧ Dominates succ root member node) := by
  unfold runners
  cases get : parents.get node with
  | none =>
      simp only [List.not_mem_nil, false_iff, not_and]
      rintro ⟨previous, edge, dominates⟩
      have holds := (tree.holds_iff node).2 (dominates.1.tail ((converse _ _).1 edge))
      simp [Holds, get] at holds
  | some parent =>
      have joins : ∀ previous, previous ∈ (pred node).filter
          (fun previous => (parents.get previous).isSome) ↔
            previous ∈ pred node ∧ parents.Holds previous := fun previous => List.mem_filter
      rw [← tree.climbs_parent_iff ne get]
      simp only
      split
      · next few =>
          -- the only predecessor in the tree is the parent
          simp only [List.not_mem_nil, false_iff, not_and, not_not]
          rintro ⟨previous, edge, dominates⟩
          have holds := (tree.holds_iff previous).2 dominates.1
          have only : ∀ other ∈ pred node, parents.Holds other → other = previous := by
            intro other hother hholds
            have first := (joins previous).2 ⟨edge, holds⟩
            have second := (joins other).2 ⟨hother, hholds⟩
            obtain ⟨single, hsingle⟩ := List.length_eq_one_iff.1
              (Nat.le_antisymm (Nat.le_of_lt_succ few) (List.length_pos_of_mem first))
            rw [hsingle, List.mem_singleton] at first second
            rw [first, second]
          obtain rfl := tree.parent_eq_of_single converse ne get edge holds only
          exact (tree.climbs_iff _ member holds).2 dominates
      · rw [List.mem_flatMap, ← exists_and_right]
        refine exists_congr fun previous => ?_
        rw [joins, and_assoc, and_assoc]
        exact and_congr_right fun edge => tree.mem_walk_iff converse ne get edge

end IsDominatorTree

end Parents

namespace DominatorTree

variable {graph : Digraph n ν ε} {root node member : Fin n}

theorem mem_frontier_iff_runners :
    node ∈ (compute graph root).frontier member ↔
      member ∈ (graph.dominatorParents root).runners graph.pred node := by
  simp [frontier, compute]

theorem mem_frontier_iff (ne : node ≠ root) :
    node ∈ (compute graph root).frontier member ↔
      (∃ previous ∈ graph.pred node, Dominates graph.succ root member previous) ∧
        ¬ (member ≠ node ∧ Dominates graph.succ root member node) :=
  mem_frontier_iff_runners.trans
    ((graph.isDominatorTree root).mem_runners_iff
      (fun _ _ => Digraph.mem_pred_iff_mem_succ) ne)

theorem root_not_mem_frontier (source : graph.pred root = []) :
    root ∉ (compute graph root).frontier member := by
  rw [mem_frontier_iff_runners, Parents.runners, source]
  split <;> simp

end DominatorTree

namespace Dominators

/-- A node other than the entry is in the frontier of exactly the nodes that dominate a predecessor
of it and do not dominate it strictly.  A node other than the exit is in the post-dominance frontier
of exactly those that post-dominate a successor of it and do not post-dominate it strictly. -/
theorem mem_frontier_iff_dominates_pred (graph : Digraph n ν ε) (entry exit member node : Fin n) :
    (node ≠ entry →
      (node ∈ (compute graph entry exit).forward.frontier member ↔
        (∃ previous ∈ graph.pred node, Dominates graph.succ entry member previous) ∧
          ¬ (member ≠ node ∧ Dominates graph.succ entry member node))) ∧
    (node ≠ exit →
      (node ∈ (compute graph entry exit).backward.frontier member ↔
        (∃ next ∈ graph.succ node, PostDominates graph.succ exit member next) ∧
          ¬ (member ≠ node ∧ PostDominates graph.succ exit member node))) := by
  refine ⟨fun inner => DominatorTree.mem_frontier_iff inner, fun inner => ?_⟩
  have backward : node ∈ (DominatorTree.compute graph.reverse exit).frontier member ↔ _ :=
    DominatorTree.mem_frontier_iff inner
  simp only [Digraph.pred_reverse, Digraph.dominates_reverse_iff] at backward
  exact backward

/-- A diamond inside a loop, with a test at `4` that also leaves the loop, a node `2` with an edge
to itself, and a node `6` that cannot be reached. -/
def diamondSample : Digraph 7 Unit Unit :=
  { labels := Vector.replicate 7 ()
    edges := [⟨0, 1, ()⟩, ⟨1, 2, ()⟩, ⟨1, 3, ()⟩, ⟨2, 2, ()⟩, ⟨2, 4, ()⟩, ⟨3, 4, ()⟩, ⟨4, 1, ()⟩,
      ⟨4, 5, ()⟩, ⟨6, 4, ()⟩] }

theorem diamondSample_frontiers :
    (List.finRange 7).map (compute diamondSample 0 5).forward.frontier =
      [[], [1], [2, 4], [4], [1], [], []] ∧
    (List.finRange 7).map (compute diamondSample 0 5).backward.frontier =
      [[], [4], [1, 2], [1], [4], [], []] ∧
    (∃ previous ∈ diamondSample.pred 1, Dominates diamondSample.succ 0 1 previous) ∧
    (∃ next ∈ diamondSample.succ 4, PostDominates diamondSample.succ 5 1 next) ∧
    ¬ PostDominates diamondSample.succ 5 1 4 := by
  have head := ((mem_frontier_iff_dominates_pred diamondSample 0 5 1 1).1 (by decide)).1
    (by decide +kernel)
  have test := ((mem_frontier_iff_dominates_pred diamondSample 0 5 1 4).2 (by decide)).1
    (by decide +kernel)
  refine ⟨by decide +kernel, by decide +kernel, head.1, test.1, fun every => ?_⟩
  exact test.2 ⟨by decide, every⟩

end Dominators

end StackFlow
