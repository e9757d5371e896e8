import StackFlow.Proofs.DominatorIteration

/-!
# Dominance and paths

The ancestors of a node in the finished tree are its dominators: the nodes that every path from the
root to the node contains.  On the reverse graph the same says that post-dominance is the notion
for paths to the exit.
-/

namespace StackFlow

variable {n : Nat} {ν ε : Type}

structure Parents.IsDominatorTree (succ : Fin n → List (Fin n)) (root : Fin n)
    (order : List (Fin n)) (number : Fin n → Nat) (parents : Parents n) : Prop
    extends IsTree root order number parents where
  numbering : Numbering root order number
  holds_iff : ∀ node, parents.Holds node ↔ Reaches succ root node
  climbs_iff : ∀ node dominator, parents.Holds node →
    (parents.Climbs node dominator ↔ Dominates succ root dominator node)

namespace Parents

variable {succ pred : Fin n → List (Fin n)} {root : Fin n} {order : List (Fin n)}
  {number : Fin n → Nat} {guide : Fin n → Fin n} {parents : Parents n}

/-- In a tree that no step changes, the strict ancestors of a node stand above every predecessor. -/
theorem climbs_pred_of_settled (guided : Guided succ pred root order number guide)
    (sound : Sound succ pred root order number guide [] parents)
    {node previous ancestor : Fin n} (member : node ∈ order) (ne : node ≠ root)
    (settled : improve pred root number parents node = parents)
    (climbs : parents.Climbs node ancestor) (hne : ancestor ≠ node) (edge : previous ∈ pred node)
    (holds : parents.Holds previous) : parents.Climbs previous ancestor := by
  have hguide := sound.filled _ (guided.guide_mem node member ne) List.not_mem_nil
  obtain ⟨parent, common, improved⟩ := improve_eq_relink guided sound.toIsTree member ne hguide
  have get : parents.get node = some parent := by
    rw [← settled, improved, get_relink_self]
  exact (common.climbs_iff ancestor).1 ((climbs.cases_get get).resolve_left hne) previous edge holds

theorem mem_path_or_climbs (guided : Guided succ pred root order number guide)
    (sound : Sound succ pred root order number guide [] parents)
    (settled : ∀ node ∈ order, node ≠ root → improve pred root number parents node = parents)
    {source target ancestor : Fin n} {nodes : List (Fin n)} (path : Path succ source target nodes)
    (holds : parents.Holds source) (climbs : parents.Climbs target ancestor) :
    ancestor ∈ nodes ∨ parents.Climbs source ancestor := by
  induction path with
  | single node => exact .inr climbs
  | @cons source next target nodes edge tail ih =>
      have reaches := ((guided.mem_iff source).1 (sound.holds_mem source holds)).tail edge
      have member := (guided.mem_iff next).2 reaches
      rcases ih (sound.filled next member List.not_mem_nil) climbs with found | climbs
      · exact .inl (List.mem_cons_of_mem _ found)
      · by_cases heq : ancestor = next
        · exact .inl (List.mem_cons_of_mem _ (heq ▸ tail.source_mem))
        · have ne : next ≠ root := by
            rintro rfl
            exact heq (sound.eq_root_of_climbs climbs)
          exact .inr (climbs_pred_of_settled guided sound member ne (settled next member ne) climbs
            heq ((guided.converse _ _).2 edge) holds)

theorem isDominatorTree_of_settled (guided : Guided succ pred root order number guide)
    (sound : Sound succ pred root order number guide [] parents)
    (settled : ∀ node ∈ order, node ≠ root → improve pred root number parents node = parents) :
    IsDominatorTree succ root order number parents where
  toIsTree := sound.toIsTree
  numbering := guided.toNumbering
  holds_iff := fun node =>
    ⟨fun holds => (guided.mem_iff node).1 (sound.holds_mem node holds),
      fun reaches => sound.filled node ((guided.mem_iff node).2 reaches) List.not_mem_nil⟩
  climbs_iff := by
    intro node dominator holds
    constructor
    · intro climbs
      refine ⟨(guided.mem_iff node).1 (sound.holds_mem node holds), fun nodes path => ?_⟩
      rcases mem_path_or_climbs guided sound settled path sound.root_holds climbs with found | above
      · exact found
      · exact sound.eq_root_of_climbs above ▸ path.source_mem
    · exact sound.keeps node dominator holds

end Parents

theorem IsPostorder.numbering {succ : Fin n → List (Fin n)} {root : Fin n} {order : List (Fin n)}
    (isPostorder : IsPostorder succ root order) : Numbering root order order.idxOf where
  lt := by
    intro node member
    have le := (isPostorder.nodup.subperm fun node _ => List.mem_finRange node).length_le
    rw [List.length_finRange] at le
    exact Nat.lt_of_lt_of_le (List.idxOf_lt_length_iff.2 member) le
  inj := fun first hfirst second hsecond heq => (List.idxOf_inj hfirst).1 heq
  root_mem := isPostorder.root_mem
  lt_root := fun node member ne => isPostorder.idxOf_lt_idxOf_root member ne

theorem IsPostorder.pending {succ : Fin n → List (Fin n)} {root : Fin n} {order : List (Fin n)}
    (isPostorder : IsPostorder succ root order) :
    Parents.Pending root order order.idxOf (order.reverse.filter fun node => node ≠ root) where
  mem := fun node member => List.mem_reverse.1 (List.mem_filter.1 member).1
  ne_root := fun node member => by simpa using (List.mem_filter.1 member).2
  falling := by
    refine List.Pairwise.filter _ (List.pairwise_reverse.2 ?_)
    exact List.pairwise_iff_forall_sublist.2 fun sublist => isPostorder.idxOf_lt_of_sublist sublist
  above := by
    intro node member absent other hother
    have hroot : node = root := by
      by_contra ne
      exact absent (by simp [member, ne])
    have hother := List.mem_filter.1 hother
    exact hroot ▸ isPostorder.idxOf_lt_idxOf_root (List.mem_reverse.1 hother.1)
      (by simpa using hother.2)

theorem IsPostorder.exists_guided {graph : Digraph n ν ε} {root : Fin n} {order : List (Fin n)}
    (isPostorder : IsPostorder graph.succ root order) :
    ∃ guide, Parents.Guided graph.succ graph.pred root order order.idxOf guide := by
  have entered : ∀ node, ∃ previous, node ∈ order → node ≠ root →
      node ∈ graph.succ previous ∧ [node, previous].Sublist order := by
    intro node
    by_cases h : node ∈ order ∧ node ≠ root
    · obtain ⟨previous, edge, sublist⟩ := isPostorder.entered node h.1 h.2
      exact ⟨previous, fun _ _ => ⟨edge, sublist⟩⟩
    · exact ⟨root, fun member ne => absurd ⟨member, ne⟩ h⟩
  choose guide hguide using entered
  refine ⟨guide, { isPostorder.numbering with
    converse := fun node previous => Digraph.mem_pred_iff_mem_succ
    mem_iff := isPostorder.mem_iff
    guide_mem := fun node member ne => ?_
    guide_pred := fun node member ne => ?_
    guide_lt := fun node member ne => ?_ }⟩
  · exact (hguide node member ne).2.subset (by simp)
  · exact Digraph.mem_pred_iff_mem_succ.2 (hguide node member ne).1
  · exact isPostorder.idxOf_lt_of_sublist (hguide node member ne).2

def Digraph.passOrder (graph : Digraph n ν ε) (root : Fin n) : List (Fin n) :=
  (postorder graph.succ root).reverse.filter fun node => node ≠ root

theorem Digraph.mem_passOrder {graph : Digraph n ν ε} {root node : Fin n}
    (member : node ∈ postorder graph.succ root) (ne : node ≠ root) :
    node ∈ graph.passOrder root := by
  simp [passOrder, member, ne]

theorem Digraph.dominatorParents_eq (graph : Digraph n ν ε) (root : Fin n) :
    graph.dominatorParents root =
      .settle (.pass graph.pred root (postorder graph.succ root).idxOf (graph.passOrder root))
        (n * n + 1) (.start root) := by
  have numbers : (Vector.ofFn fun node => (postorder graph.succ root).idxOf node).get =
      (postorder graph.succ root).idxOf := funext fun node => get_ofFn_node _ node
  simp only [dominatorParents, numbers, passOrder]

theorem Digraph.exists_guided_start (graph : Digraph n ν ε) (root : Fin n) :
    ∃ guide, Parents.Guided graph.succ graph.pred root (postorder graph.succ root)
        (postorder graph.succ root).idxOf guide ∧
      Parents.Sound graph.succ graph.pred root (postorder graph.succ root)
        (postorder graph.succ root).idxOf guide (graph.passOrder root) (.start root) := by
  obtain ⟨guide, guided⟩ := (postorder_isPostorder graph.succ root).exists_guided
  exact ⟨guide, guided, Parents.start_sound guided fun node => mem_passOrder⟩

theorem Digraph.pending_passOrder (graph : Digraph n ν ε) (root : Fin n) :
    Parents.Pending root (postorder graph.succ root) (postorder graph.succ root).idxOf
      (graph.passOrder root) :=
  (postorder_isPostorder graph.succ root).pending

theorem Digraph.isDominatorTree (graph : Digraph n ν ε) (root : Fin n) :
    Parents.IsDominatorTree graph.succ root (postorder graph.succ root)
      (postorder graph.succ root).idxOf (graph.dominatorParents root) := by
  obtain ⟨guide, guided, start⟩ := graph.exists_guided_start root
  obtain ⟨sound, settled⟩ := Parents.settle_spec guided (graph.pending_passOrder root) (n * n + 1)
    start (by omega)
  rw [dominatorParents_eq]
  exact Parents.isDominatorTree_of_settled guided sound fun node member ne =>
    settled node (mem_passOrder member ne)

theorem DominatorTree.dominates_iff (graph : Digraph n ν ε) (root dominator node : Fin n) :
    (compute graph root).dominates dominator node = true ↔
      Dominates graph.succ root dominator node := by
  have tree := graph.isDominatorTree root
  rw [dominates, List.contains_iff_mem]
  refine (Parents.mem_chain_iff tree.numbering tree.toIsTree).trans ?_
  constructor
  · rintro ⟨holds, climbs⟩
    exact (tree.climbs_iff node dominator holds).1 climbs
  · intro dominates
    have holds := (tree.holds_iff node).2 dominates.1
    exact ⟨holds, (tree.climbs_iff node dominator holds).2 dominates⟩

/-- A node dominates another if and only if that one can be reached from the entry and every path
there contains the first.  It post-dominates the other if and only if the exit can be reached from
that one and every path to the exit contains the first. -/
theorem dominates_iff_mem_every_path (graph : Digraph n ν ε) (entry exit first second : Fin n) :
    ((Dominators.compute graph entry exit).dominates first second = true ↔
      (∃ nodes, Path graph.succ entry second nodes) ∧
        ∀ nodes, Path graph.succ entry second nodes → first ∈ nodes) ∧
    ((Dominators.compute graph entry exit).postDominates first second = true ↔
      (∃ nodes, Path graph.succ second exit nodes) ∧
        ∀ nodes, Path graph.succ second exit nodes → first ∈ nodes) := by
  refine ⟨DominatorTree.dominates_iff graph entry first second, ?_⟩
  refine (DominatorTree.dominates_iff graph.reverse exit first second).trans ?_
  have back : ∀ nodes, Path graph.reverse.succ exit second nodes.reverse ↔
      Path graph.succ second exit nodes := by
    intro nodes
    rw [Digraph.path_reverse_iff, List.reverse_reverse]
  constructor
  · rintro ⟨⟨nodes, path⟩, every⟩
    refine ⟨⟨_, Digraph.path_reverse_iff.1 path⟩, fun nodes path => ?_⟩
    exact List.mem_reverse.1 (every _ ((back nodes).2 path))
  · rintro ⟨⟨nodes, path⟩, every⟩
    refine ⟨⟨_, (back nodes).2 path⟩, fun nodes path => ?_⟩
    exact List.mem_reverse.1 (every _ (Digraph.path_reverse_iff.1 path))

end StackFlow
