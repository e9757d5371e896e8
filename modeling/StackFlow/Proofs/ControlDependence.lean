import StackFlow.Proofs.Frontier
import StackFlow.Proofs.ReachingDefinitions

/-!
# Control dependence and paths to the exit

A condition decides on a node if one of its branches leads to the node in any case and another need
not.  In a control-flow graph the exit has no successor, so the post-dominance frontiers are exact
at every node, and they hold the pairs of this relation.
-/

namespace StackFlow

variable {n : Nat}

/-! ## The two maps -/

namespace ControlDependence

variable {dependence : ControlDependence n} {node condition : Fin n}

structure Records (dependence : ControlDependence n) (related : Fin n → Fin n → Prop) : Prop where
  conditions : ∀ node condition,
    dependence.conditions.Lists node condition ↔ related node condition
  dependents : ∀ node condition,
    dependence.dependents.Lists condition node ↔ related node condition

theorem records_empty : Records ({} : ControlDependence n) fun _ _ => False where
  conditions _ _ := iff_false_intro SortedMap.not_lists_empty
  dependents _ _ := iff_false_intro SortedMap.not_lists_empty

theorem Records.congr {related other : Fin n → Fin n → Prop} (records : dependence.Records related)
    (same : ∀ node condition, related node condition ↔ other node condition) :
    dependence.Records other where
  conditions node condition := (records.conditions node condition).trans (same node condition)
  dependents node condition := (records.dependents node condition).trans (same node condition)

theorem Records.add {related : Fin n → Fin n → Prop} (records : dependence.Records related)
    (node condition : Fin n) :
    (dependence.add node condition).Records fun first second =>
      first = node ∧ second = condition ∨ related first second where
  conditions first second := by
    rw [ControlDependence.add, SortedMap.lists_insertWith_iff, records.conditions]
  dependents first second := by
    rw [ControlDependence.add, SortedMap.lists_insertWith_iff, records.dependents, and_comm]

theorem Records.addAll {related : Fin n → Fin n → Prop} (records : dependence.Records related)
    (node : Fin n) (conditions : List (Fin n)) :
    (dependence.addAll node conditions).Records fun first second =>
      first = node ∧ second ∈ conditions ∨ related first second := by
  induction conditions generalizing dependence related with
  | nil => exact records.congr (by simp)
  | cons condition rest ih =>
      refine (ih (records.add node condition)).congr fun first second => ?_
      simp only [List.mem_cons, and_or_left, or_assoc]
      exact or_left_comm

theorem Records.foldl_addAll {related : Fin n → Fin n → Prop} (records : dependence.Records related)
    (conditions : Fin n → List (Fin n)) (nodes : List (Fin n)) :
    (nodes.foldl (fun dependence node => dependence.addAll node (conditions node))
        dependence).Records fun first second =>
      first ∈ nodes ∧ second ∈ conditions first ∨ related first second := by
  induction nodes generalizing dependence related with
  | nil => exact records.congr (by simp)
  | cons node rest ih =>
      refine (ih (records.addAll node (conditions node))).congr fun first second => ?_
      grind

theorem records_ofDominators (dominators : Dominators n) :
    (ofDominators dominators).Records fun node condition =>
      condition ∈ dominators.backward.frontier node := by
  refine (records_empty.foldl_addAll dominators.backward.frontier (List.finRange n)).congr ?_
  simp

theorem dependsOn_iff_lists :
    dependence.dependsOn node condition = true ↔ dependence.conditions.Lists node condition := by
  rw [dependsOn, Option.any_eq_true]
  simp [SortedMap.Lists, SortedSet.contains, SortedSet.mem_toList]

theorem mem_edges_iff_lists :
    (condition, node) ∈ dependence.edges ↔ dependence.dependents.Lists condition node := by
  simp [edges, SortedMap.Lists, SortedMap.mem_entries_iff, SortedSet.mem_toList]

theorem nodup_edges (dependence : ControlDependence n) : dependence.edges.Nodup := by
  refine List.nodup_flatMap.2 ⟨fun entry _ => ?_, ?_⟩
  · exact entry.2.nodup_toList.map fun first second same => (Prod.mk.inj same).2
  · refine dependence.dependents.ascending.imp fun {first second} ascends pair member other => ?_
    obtain ⟨_, -, rfl⟩ := List.mem_map.1 member
    obtain ⟨_, -, same⟩ := List.mem_map.1 other
    have key := (Prod.mk.inj same).1
    rw [key] at ascends
    exact SortedSet.not_ascends_self _ ascends

end ControlDependence

/-! ## Dependence in a control-flow graph -/

namespace FlowGraph

variable {scope : Scope} {options : Options} {flow : FlowGraph} {condition node : Fin flow.size}

/-- From some successor of the condition every path to the exit contains the node, and from the
condition itself not every one does, unless the two are the same. -/
def Decides (flow : FlowGraph) (condition node : Fin flow.size) : Prop :=
  ∃ next ∈ flow.graph.succ condition,
    (∃ nodes, Path flow.graph.succ next flow.exit nodes) ∧
    (∀ nodes, Path flow.graph.succ next flow.exit nodes → node ∈ nodes) ∧
    (node = condition ∨ ∃ nodes, Path flow.graph.succ condition flow.exit nodes ∧ node ∉ nodes)

theorem decides_iff_dominates :
    flow.Decides condition node ↔
      (∃ next ∈ flow.graph.succ condition,
        Dominates flow.graph.reverse.succ flow.exit node next) ∧
      ¬ (node ≠ condition ∧ Dominates flow.graph.reverse.succ flow.exit node condition) := by
  simp only [Digraph.dominates_reverse_iff]
  constructor
  · rintro ⟨next, edge, reaches, every, either⟩
    refine ⟨⟨next, edge, reaches, every⟩, ?_⟩
    rintro ⟨ne, -, all⟩
    obtain ⟨nodes, path, absent⟩ := either.resolve_left ne
    exact absent (all nodes path)
  · rintro ⟨⟨next, edge, reaches, every⟩, avoids⟩
    refine ⟨next, edge, reaches, every, ?_⟩
    by_contra neither
    rw [not_or] at neither
    refine avoids ⟨neither.1, reaches.head edge, fun nodes path => ?_⟩
    by_contra absent
    exact neither.2 ⟨nodes, path, absent⟩

theorem dependsOn_iff_decides (wellFormed : flow.WellFormed) :
    flow.controlDependence.dependsOn node condition = true ↔ flow.Decides condition node := by
  have frontier : flow.controlDependence.dependsOn node condition = true ↔
      condition ∈ (DominatorTree.compute flow.graph.reverse flow.exit).frontier node :=
    ControlDependence.dependsOn_iff_lists.trans
      ((ControlDependence.records_ofDominators flow.dominators).conditions node condition)
  rw [frontier, decides_iff_dominates]
  by_cases exits : condition = flow.exit
  · -- nothing is decided at the exit
    subst exits
    have sink : flow.graph.succ flow.exit = [] :=
      List.eq_nil_iff_forall_not_mem.2 wellFormed.exit_sink
    have absent : flow.exit ∉ (DominatorTree.compute flow.graph.reverse flow.exit).frontier node :=
      DominatorTree.root_not_mem_frontier (by rw [Digraph.pred_reverse, sink])
    simp [absent, sink]
  · rw [DominatorTree.mem_frontier_iff exits, Digraph.pred_reverse]

/-- In a graph that was built, a node depends on a condition if and only if the condition decides on
it.  The conditions of a node and the dependents of a condition are the two sides of this relation,
and the edges are its pairs, each once. -/
theorem dependsOn_iff_exists_branch (built : build scope options = .ok flow)
    (node condition : Fin flow.size) :
    (flow.controlDependence.dependsOn node condition = true ↔
      ∃ next ∈ flow.graph.succ condition,
        (∃ nodes, Path flow.graph.succ next flow.exit nodes) ∧
        (∀ nodes, Path flow.graph.succ next flow.exit nodes → node ∈ nodes) ∧
        (node = condition ∨
          ∃ nodes, Path flow.graph.succ condition flow.exit nodes ∧ node ∉ nodes)) ∧
    ((∃ conditions, flow.controlDependence.conditionsOf? node = some conditions ∧
        condition ∈ conditions) ↔
      ∃ dependents, flow.controlDependence.dependentsOf? condition = some dependents ∧
        node ∈ dependents) ∧
    ((∃ conditions, flow.controlDependence.conditionsOf? node = some conditions ∧
        condition ∈ conditions) ↔
      flow.controlDependence.dependsOn node condition = true) ∧
    ((condition, node) ∈ flow.controlDependence.edges ↔
      flow.controlDependence.dependsOn node condition = true) ∧
    flow.controlDependence.edges.Nodup := by
  have records := ControlDependence.records_ofDominators flow.dominators
  -- The two maps are filled side by side, so they hold the pairs of one relation.
  have converse : flow.controlDependence.dependents.Lists condition node ↔
      flow.controlDependence.conditions.Lists node condition :=
    (records.dependents node condition).trans (records.conditions node condition).symm
  refine ⟨dependsOn_iff_decides (build_wellFormed built), converse.symm,
    ControlDependence.dependsOn_iff_lists.symm, ?_, flow.controlDependence.nodup_edges⟩
  rw [ControlDependence.mem_edges_iff_lists, converse, ControlDependence.dependsOn_iff_lists]

/-- The test of a loop depends on itself, and the body on the test: the exit can be reached past
the body, but not from it without another test. -/
theorem loopSample_header_decides :
    ∃ flow header body, build loopSample {} = .ok flow ∧
      flow.nodeOf? 1 = some header ∧ flow.nodeOf? 2 = some body ∧
      flow.controlDependence.dependsOn header header = true ∧
      flow.controlDependence.dependsOn body header = true ∧
      (∃ nodes, Path flow.graph.succ header flow.exit nodes ∧ body ∉ nodes) ∧
      ∃ next ∈ flow.graph.succ header,
        ∀ nodes, Path flow.graph.succ next flow.exit nodes → header ∈ nodes := by
  have run : succeedsWith (fun flow =>
      (flow.nodeOf? 1).any fun header => (flow.nodeOf? 2).any fun body =>
        header ≠ body && flow.controlDependence.dependsOn header header &&
          flow.controlDependence.dependsOn body header)
      (build loopSample {}) = true := by decide +kernel
  obtain ⟨flow, built, found⟩ := succeedsWith_iff.1 run
  simp only [Option.any_eq_true, Bool.and_eq_true, decide_eq_true_eq] at found
  obtain ⟨header, hheader, body, hbody, ⟨ne, self⟩, below⟩ := found
  obtain ⟨next, edge, -, every, -⟩ := (dependsOn_iff_exists_branch built header header).1.1 self
  obtain ⟨-, -, -, -, either⟩ := (dependsOn_iff_exists_branch built body header).1.1 below
  exact ⟨flow, header, body, built, hheader, hbody, self, below, either.resolve_left ne.symm,
    next, edge, every⟩

end FlowGraph

end StackFlow
