import StackFlow.Proofs.ControlDependence
import StackFlow.Proofs.Edits
import StackFlow.Proofs.Leaders
import StackFlow.Proofs.Success

/-!
# Pruning

Pruning removes nodes to which no edge leads, so no path from a node that is left goes through a
node that is not.  The pruned graph is embedded in the other one (`Digraph.Embeds`): the paths from
one node to another are the same in both, and with them all that is defined by paths.  The nodes
are removed in one sweep, so a jump may be left to which only removed jumps led.
-/

namespace StackFlow

variable {m n : Nat} {ν ε : Type}

/-! ## Embedded graphs -/

namespace Digraph

/-- The nodes of the inner graph are nodes of the outer one with the edges between them, and no edge
of the outer graph leads away from them. -/
structure Embeds (inner : Digraph m ν ε) (outer : Digraph n ν ε) (embed : Fin m → Fin n) :
    Prop where
  injective : Function.Injective embed
  mem_succ_iff : ∀ source target,
    embed target ∈ outer.succ (embed source) ↔ target ∈ inner.succ source
  closed : ∀ source next, next ∈ outer.succ (embed source) → ∃ target, embed target = next

namespace Embeds

variable {inner : Digraph m ν ε} {outer : Digraph n ν ε} {embed : Fin m → Fin n}
  {source target through root : Fin m}

section

variable (embeds : Embeds inner outer embed)

include embeds

theorem map_path {nodes : List (Fin m)} (path : Path inner.succ source target nodes) :
    Path outer.succ (embed source) (embed target) (nodes.map embed) := by
  induction path with
  | single node => exact .single _
  | cons edge tail ih => exact .cons ((embeds.mem_succ_iff _ _).2 edge) ih

theorem exists_path {start last : Fin n} {nodes : List (Fin n)}
    (path : Path outer.succ start last nodes) (hstart : embed source = start) :
    ∃ target inside, embed target = last ∧ nodes = inside.map embed ∧
      Path inner.succ source target inside := by
  induction path generalizing source with
  | single node => exact ⟨source, [source], hstart, by simp [hstart], .single source⟩
  | cons edge tail ih =>
      subst hstart
      obtain ⟨middle, rfl⟩ := embeds.closed source _ edge
      obtain ⟨target, inside, hlast, rfl, path⟩ := ih rfl
      exact ⟨target, source :: inside, hlast, rfl, .cons ((embeds.mem_succ_iff _ _).1 edge) path⟩

theorem path_iff {nodes : List (Fin n)} :
    Path outer.succ (embed source) (embed target) nodes ↔
      ∃ inside, nodes = inside.map embed ∧ Path inner.succ source target inside := by
  constructor
  · intro path
    obtain ⟨last, inside, hlast, heq, path⟩ := embeds.exists_path path rfl
    rw [embeds.injective hlast] at path
    exact ⟨inside, heq, path⟩
  · rintro ⟨inside, rfl, path⟩
    exact embeds.map_path path

theorem reaches_iff :
    Reaches outer.succ (embed source) (embed target) ↔ Reaches inner.succ source target := by
  simp [Reaches, embeds.path_iff]

theorem forall_path_iff :
    (∀ nodes, Path outer.succ (embed source) (embed target) nodes → embed through ∈ nodes) ↔
      ∀ nodes, Path inner.succ source target nodes → through ∈ nodes := by
  constructor
  · intro every nodes path
    exact (List.mem_map_of_injective embeds.injective).1 (every _ (embeds.map_path path))
  · intro every nodes path
    obtain ⟨inside, rfl, inner⟩ := embeds.path_iff.1 path
    exact List.mem_map_of_mem (every inside inner)

theorem dominates_iff :
    Dominates outer.succ (embed root) (embed through) (embed target) ↔
      Dominates inner.succ root through target :=
  and_congr embeds.reaches_iff embeds.forall_path_iff

theorem dominates_reverse_iff :
    Dominates outer.reverse.succ (embed root) (embed through) (embed target) ↔
      Dominates inner.reverse.succ root through target := by
  rw [Digraph.dominates_reverse_iff, Digraph.dominates_reverse_iff]
  exact and_congr embeds.reaches_iff embeds.forall_path_iff

end

end Embeds

end Digraph

/-! ## The order of edges -/

namespace Edge

instance : Std.Irrefl (@Before ε (Fin n) _) where
  irrefl := by
    rintro edge (lt | ⟨-, lt⟩)
    · exact Fin.lt_irrefl _ lt
    · exact Fin.lt_irrefl _ lt

instance : Std.Antisymm (@Before ε (Fin n) _) where
  antisymm := by
    rintro first second (lt | ⟨same, lt⟩) (gt | ⟨same', gt⟩)
    all_goals omega

end Edge

/-! ## The two graphs -/

namespace FlowGraph

variable {scope : Scope} {options : Options} {flow pruned kept : FlowGraph}
  {wired resolved : Draft} {embed : Fin pruned.size → Fin kept.size}

/-- Two graphs of one scope, of which the first was pruned, and the node that each node of the first
is in the second: the one with the same index under construction. -/
structure Pruned (scope : Scope) (options : Options) (wired resolved : Draft)
    (pruned kept : FlowGraph) (embed : Fin pruned.size → Fin kept.size) : Prop where
  after : Stages scope { options with pruneJumps := true } pruned wired resolved
  before : Stages scope { options with pruneJumps := false } kept wired resolved
  index_eq : ∀ node, kept.frozen.indices.get (embed node) = pruned.frozen.indices.get node

theorem exists_pruned
    (after : Stages scope { options with pruneJumps := true } pruned wired resolved)
    (before : Stages scope { options with pruneJumps := false } kept wired resolved) :
    ∃ embed, Pruned scope options wired resolved pruned kept embed := by
  have each : ∀ node : Fin pruned.size, ∃ image : Fin kept.size,
      kept.frozen.indices.get image = pruned.frozen.indices.get node := by
    intro node
    have present := (Sketch.exists_node?_freeze_iff after.freeze).1 ⟨node, after.index_eq_iff.2 rfl⟩
    obtain ⟨image, found⟩ := (Sketch.exists_node?_freeze_iff before.freeze).2
      (Sketch.contains_foldl_removeNode.1 present).1
    exact ⟨image, before.index_eq_iff.1 found⟩
  choose embed index_eq using each
  exact ⟨embed, after, before, index_eq⟩

namespace Pruned

variable (both : Pruned scope options wired resolved pruned kept embed)

include both

theorem lt_iff {first second : Fin pruned.size} :
    embed first < embed second ↔ first < second := by
  rw [← Sketch.get_lt_get_iff both.before.freeze, both.index_eq, both.index_eq]
  exact Sketch.get_lt_get_iff both.after.freeze

theorem embed_eq_iff {first : Fin pruned.size} {second : Fin kept.size} :
    embed first = second ↔
      pruned.frozen.indices.get first = kept.frozen.indices.get second := by
  rw [← both.before.index_inj, both.index_eq]

theorem injective : Function.Injective embed := by
  intro first second same
  rw [both.embed_eq_iff, both.index_eq] at same
  exact both.after.index_inj.1 same

theorem label_eq (node : Fin pruned.size) :
    pruned.graph.label node = kept.graph.label (embed node) := by
  have first := node?_of_lastDraft (Sketch.node?_eq_some_label both.after.freeze node)
  have second := node?_of_lastDraft (Sketch.node?_eq_some_label both.before.freeze (embed node))
  rw [both.index_eq, first] at second
  exact Option.some.inj second

theorem blockOf?_eq (node : Fin pruned.size) :
    pruned.blockOf? node = kept.blockOf? (embed node) :=
  congrArg Draft.blockOfIndex? (both.index_eq node).symm

theorem embed_entry : embed pruned.entry = kept.entry := by
  rw [← both.before.index_entry_iff, both.index_eq]
  exact both.after.index_eq_iff.1 both.after.entry

theorem embed_exit : embed pruned.exit = kept.exit := by
  rw [← both.before.index_exit_iff, both.index_eq]
  exact both.after.index_eq_iff.1 both.after.exit

theorem map_mem_edges_iff {edge : Edge (Fin pruned.size) BranchKind} :
    edge.map embed ∈ kept.graph.edges ↔ edge ∈ pruned.graph.edges := by
  rw [both.before.mem_edges_iff, both.after.mem_edges_iff]
  simp only [Edge.map, both.index_eq]

theorem exists_embed_iff {node : Fin kept.size} :
    (∃ survivor, embed survivor = node) ↔
      kept.frozen.indices.get node ∉ resolved.unreachableJumps := by
  have present : resolved.graph.contains (kept.frozen.indices.get node) = true :=
    (Sketch.exists_node?_freeze_iff both.before.freeze).1 ⟨node, both.before.index_eq_iff.2 rfl⟩
  calc (∃ survivor, embed survivor = node)
      ↔ ∃ survivor, pruned.frozen.node? (kept.frozen.indices.get node) = some survivor := by
        simp only [both.embed_eq_iff, both.after.index_eq_iff]
    _ ↔ resolved.prune.graph.contains (kept.frozen.indices.get node) = true :=
        Sketch.exists_node?_freeze_iff both.after.freeze
    _ ↔ kept.frozen.indices.get node ∉ resolved.unreachableJumps := by
        rw [Draft.prune, Sketch.contains_foldl_removeNode]
        exact and_iff_right present

theorem inDegree_eq_zero_iff {node : Fin kept.size} :
    resolved.graph.inDegree (kept.frozen.indices.get node) = 0 ↔ kept.graph.pred node = [] := by
  rw [Sketch.inDegree, List.length_eq_zero_iff, List.filter_eq_nil_iff,
    List.eq_nil_iff_forall_not_mem]
  simp only [beq_iff_eq, Digraph.mem_pred_iff_mem_succ, both.before.mem_succ_iff]
  constructor
  · rintro none previous ⟨edge, member, -, htarget⟩
    exact none edge member htarget
  · intro none edge member htarget
    -- the source of the edge is a node of the graph
    obtain ⟨previous, found⟩ := (Sketch.exists_node?_freeze_iff both.before.freeze).2
      (both.before.live edge member).1
    exact none previous ⟨edge, member, (both.before.index_eq_iff.1 found).symm, htarget⟩

theorem gone_iff {node : Fin kept.size} :
    (∀ survivor, embed survivor ≠ node) ↔
      kept.graph.pred node = [] ∧ ∃ number block first, kept.blockOf? node = some number ∧
        kept.blocks[number]? = some block ∧ block.first? = some first ∧
          first.op.isJump = true := by
  rw [← not_exists, both.exists_embed_iff, not_not, ← both.inDegree_eq_zero_iff]
  simp only [blockOf?, blockOfIndex?_eq_some_iff, both.before.blocks, Draft.unreachableJumps,
    List.mem_map, List.mem_filter, Bool.and_eq_true, beq_iff_eq, Option.any_eq_true, Prod.exists,
    List.mem_zipIdx_iff_getElem?]
  constructor
  · rintro ⟨block, number, ⟨found, ⟨-, zero⟩, first, hfirst, jumps⟩, heq⟩
    exact ⟨heq ▸ zero, number, block, first, heq.symm, found, hfirst, jumps⟩
  · rintro ⟨zero, number, block, first, heq, found, hfirst, jumps⟩
    have present : resolved.graph.contains (kept.frozen.indices.get node) = true :=
      (Sketch.exists_node?_freeze_iff both.before.freeze).1 ⟨node, both.before.index_eq_iff.2 rfl⟩
    rw [heq] at zero present
    exact ⟨block, number, ⟨found, ⟨present, zero⟩, first, hfirst, jumps⟩, heq.symm⟩

theorem embeds : pruned.graph.Embeds kept.graph embed where
  injective := both.injective
  mem_succ_iff := by
    intro source target
    rw [both.before.mem_succ_iff, both.after.mem_succ_iff, both.index_eq, both.index_eq]
  closed := by
    intro source next edge
    by_contra none
    have gone := both.gone_iff.1 fun survivor same => none ⟨survivor, same⟩
    have member := Digraph.mem_pred_iff_mem_succ.2 edge
    rw [gone.1] at member
    cases member

theorem not_reaches_of_gone {node : Fin kept.size} (gone : ∀ survivor, embed survivor ≠ node) :
    ¬ Reaches kept.graph.succ kept.entry node := by
  rintro ⟨nodes, path⟩
  obtain ⟨survivor, -, same, -, -⟩ := both.embeds.exists_path path both.embed_entry
  exact gone survivor same

theorem edges_eq :
    pruned.graph.edges.map (Edge.map embed) =
      kept.graph.edges.filter fun edge =>
        decide ((∃ source, embed source = edge.source) ∧ ∃ target, embed target = edge.target) := by
  have before := both.before.regular.simple.before_freeze both.before.freeze
  have after := both.after.regular.simple.before_freeze both.after.freeze
  refine List.Pairwise.eq_of_mem_iff (r := Edge.Before) ?_ (before.filter _) ?_
  · refine List.pairwise_map.2 (after.imp ?_)
    simp [Edge.Before, Edge.map, both.lt_iff, both.injective.eq_iff]
  · intro edge
    simp only [List.mem_map, List.mem_filter, decide_eq_true_eq]
    constructor
    · rintro ⟨inner, member, rfl⟩
      exact ⟨both.map_mem_edges_iff.2 member, ⟨_, rfl⟩, _, rfl⟩
    · rintro ⟨member, ⟨source, hsource⟩, target, htarget⟩
      obtain ⟨_, _, label⟩ := edge
      obtain rfl : embed source = _ := hsource
      obtain rfl : embed target = _ := htarget
      exact ⟨⟨source, target, label⟩, both.map_mem_edges_iff.1 member, rfl⟩

/-! ## Analyses -/

theorem dominates_eq (first second : Fin pruned.size) :
    pruned.dominators.dominates first second =
      kept.dominators.dominates (embed first) (embed second) := by
  rw [Bool.eq_iff_iff]
  refine (DominatorTree.dominates_iff pruned.graph pruned.entry first second).trans ?_
  refine Iff.trans ?_ (DominatorTree.dominates_iff kept.graph kept.entry _ _).symm
  rw [← both.embed_entry]
  exact both.embeds.dominates_iff.symm

theorem postDominates_eq (first second : Fin pruned.size) :
    pruned.dominators.postDominates first second =
      kept.dominators.postDominates (embed first) (embed second) := by
  rw [Bool.eq_iff_iff]
  refine (DominatorTree.dominates_iff pruned.graph.reverse pruned.exit first second).trans ?_
  refine Iff.trans ?_ (DominatorTree.dominates_iff kept.graph.reverse kept.exit _ _).symm
  rw [← both.embed_exit]
  exact both.embeds.dominates_reverse_iff.symm

theorem dependsOn_eq (node condition : Fin pruned.size) :
    pruned.controlDependence.dependsOn node condition =
      kept.controlDependence.dependsOn (embed node) (embed condition) := by
  have dominates : ∀ target,
      Dominates kept.graph.reverse.succ (embed pruned.exit) (embed node) (embed target) ↔
        Dominates pruned.graph.reverse.succ pruned.exit node target :=
    fun _ => both.embeds.dominates_reverse_iff
  rw [Bool.eq_iff_iff, dependsOn_iff_decides both.after.wellFormed,
    dependsOn_iff_decides both.before.wellFormed, decides_iff_dominates, decides_iff_dominates,
    ← both.embed_exit, dominates, both.injective.ne_iff]
  refine and_congr_left fun _ => ?_
  constructor
  · rintro ⟨next, edge, dominated⟩
    exact ⟨embed next, (both.embeds.mem_succ_iff _ _).2 edge, (dominates next).2 dominated⟩
  · rintro ⟨next, edge, dominated⟩
    obtain ⟨inner, rfl⟩ := both.embeds.closed condition next edge
    exact ⟨inner, (both.embeds.mem_succ_iff _ _).1 edge, (dominates inner).1 dominated⟩

end Pruned

theorem exists_assembled_both (scope : Scope) (options : Options) :
    ∃ wired resolved,
      (∃ frozen entry exit,
        Assembled scope { options with pruneJumps := true } wired resolved frozen entry exit) ∧
      ∃ frozen entry exit,
        Assembled scope { options with pruneJumps := false } wired resolved frozen entry exit := by
  obtain ⟨wired, resolved, frozen, entry, exit, after⟩ :=
    exists_assembled scope { options with pruneJumps := true }
  obtain ⟨wired', resolved', frozen', entry', exit', before⟩ :=
    exists_assembled scope { options with pruneJumps := false }
  obtain rfl : wired' = wired := Except.ok.inj (before.wire.symm.trans after.wire)
  obtain rfl : resolved' = resolved := Except.ok.inj (before.finalize.symm.trans after.finalize)
  exact ⟨wired', resolved', ⟨frozen, entry, exit, after⟩, frozen', entry', exit', before⟩

/-- Pruning is not seen by what it leaves.  Either neither graph can be built, for the same reason,
or the pruned graph is the other one on the nodes that are left, numbered anew in order, with the
same blocks, statements, issues and warnings, and with the same answers about these nodes. -/
theorem build_pruned_induced (scope : Scope) (options : Options) :
    (∃ fault, build scope { options with pruneJumps := true } = .error fault ∧
      build scope { options with pruneJumps := false } = .error fault) ∨
    ∃ pruned kept, ∃ embed : Fin pruned.size → Fin kept.size,
      build scope { options with pruneJumps := true } = .ok pruned ∧
      build scope { options with pruneJumps := false } = .ok kept ∧
      (∀ first second, embed first < embed second ↔ first < second) ∧
      (∀ node, (∀ survivor, embed survivor ≠ node) ↔
        kept.graph.pred node = [] ∧ ∃ number block first, kept.blockOf? node = some number ∧
          kept.blocks[number]? = some block ∧ block.first? = some first ∧
          first.op.isJump = true) ∧
      (∀ node, (∀ survivor, embed survivor ≠ node) →
        ¬ ∃ nodes, Path kept.graph.succ kept.entry node nodes) ∧
      (∀ node, pruned.graph.label node = kept.graph.label (embed node)) ∧
      (∀ node, pruned.blockOf? node = kept.blockOf? (embed node)) ∧
      pruned.graph.edges.map (Edge.map embed) =
        kept.graph.edges.filter (fun edge =>
          decide ((∃ source, embed source = edge.source) ∧ ∃ target, embed target = edge.target)) ∧
      embed pruned.entry = kept.entry ∧ embed pruned.exit = kept.exit ∧
      pruned.blocks = kept.blocks ∧ pruned.statements = kept.statements ∧
      pruned.issues = kept.issues ∧ pruned.warnings = kept.warnings ∧
      ∀ first second,
        pruned.dominators.dominates first second =
          kept.dominators.dominates (embed first) (embed second) ∧
        pruned.dominators.postDominates first second =
          kept.dominators.postDominates (embed first) (embed second) ∧
        pruned.controlDependence.dependsOn first second =
          kept.controlDependence.dependsOn (embed first) (embed second) := by
  obtain ⟨wired, resolved, ⟨frozen, entry, exit, after⟩, frozen', entry', exit', before⟩ :=
    exists_assembled_both scope options
  rw [after.build_eq, before.build_eq]
  cases scope.checkedEndAddress with
  | error fault => exact .inl ⟨fault, rfl, rfl⟩
  | ok stop =>
      simp only [ok_bind]
      cases split : resolved.blocks.mapM Block.checkedStatements with
      | error fault => exact .inl ⟨fault, rfl, rfl⟩
      | ok statements =>
          obtain ⟨embed, both⟩ := exists_pruned (after.stages split) (before.stages split)
          exact .inr ⟨_, _, embed, rfl, rfl, fun _ _ => both.lt_iff, fun _ => both.gone_iff,
            fun _ => both.not_reaches_of_gone, both.label_eq, both.blockOf?_eq, both.edges_eq,
            both.embed_entry, both.embed_exit, rfl, rfl, rfl, rfl, fun first second =>
              ⟨both.dominates_eq first second, both.postDominates_eq first second,
                both.dependsOn_eq first second⟩⟩

example :
    succeedsWith (fun flow => flow.size == 4) (build straySample {}) = true ∧
      succeedsWith (fun flow => flow.size == 5) (build straySample { pruneJumps := false }) =
        true := by
  decide +kernel

/-! ## Jumps that are left behind -/

def BeginsWithJump (flow : FlowGraph) (node : Fin flow.size) : Prop :=
  ∃ number block first, flow.blockOf? node = some number ∧ flow.blocks[number]? = some block ∧
    block.first? = some first ∧ first.op.isJump = true

def Stranded (flow : FlowGraph) (node : Fin flow.size) : Prop :=
  flow.graph.pred node = [] ∧ flow.BeginsWithJump node

theorem exists_unpruned (prunes : options.pruneJumps = true)
    (built : build scope options = .ok flow) :
    ∃ whole wired resolved embed, build scope { options with pruneJumps := false } = .ok whole ∧
      Pruned scope options wired resolved flow whole embed := by
  obtain ⟨wired, resolved, ⟨frozen, entry, exit, after⟩, frozen', entry', exit', before⟩ :=
    exists_assembled_both scope options
  have same : { options with pruneJumps := true } = options := by rw [← prunes]
  rw [← same, after.build_eq] at built
  obtain ⟨stop, checked, built⟩ := bind_eq_ok_iff.1 built
  obtain ⟨statements, split, built⟩ := bind_eq_ok_iff.1 built
  obtain rfl := pure_eq_ok_iff.1 built
  obtain ⟨embed, both⟩ := exists_pruned (after.stages split) (before.stages split)
  refine ⟨_, wired, resolved, embed, ?_, both⟩
  rw [before.build_eq, checked, ok_bind, split]
  rfl

namespace Pruned

variable (both : Pruned scope options wired resolved pruned kept embed)

include both

theorem beginsWithJump_iff {node : Fin pruned.size} :
    pruned.BeginsWithJump node ↔ kept.BeginsWithJump (embed node) := by
  have blocks : pruned.blocks = kept.blocks := both.after.blocks.trans both.before.blocks.symm
  simp only [BeginsWithJump, both.blockOf?_eq, blocks]

theorem pred_eq_nil_iff {node : Fin pruned.size} :
    pruned.graph.pred node = [] ↔
      ∀ previous ∈ kept.graph.pred (embed node), kept.Stranded previous := by
  have mem_pred_iff : ∀ previous,
      embed previous ∈ kept.graph.pred (embed node) ↔ previous ∈ pruned.graph.pred node := by
    simp [Digraph.mem_pred_iff_mem_succ, both.embeds.mem_succ_iff]
  rw [List.eq_nil_iff_forall_not_mem]
  constructor
  · intro none previous member
    refine both.gone_iff.1 ?_
    rintro survivor rfl
    exact none survivor ((mem_pred_iff survivor).1 member)
  · intro gone previous member
    exact both.gone_iff.2 (gone _ ((mem_pred_iff previous).2 member)) previous rfl

theorem stranded_iff {node : Fin pruned.size} :
    pruned.Stranded node ↔ kept.BeginsWithJump (embed node) ∧ kept.graph.pred (embed node) ≠ [] ∧
      ∀ previous ∈ kept.graph.pred (embed node), kept.Stranded previous := by
  rw [Stranded, both.pred_eq_nil_iff, both.beginsWithJump_iff]
  constructor
  · rintro ⟨gone, jumps⟩
    -- it would be gone itself if nothing had led to it before
    exact ⟨jumps, fun none => both.gone_iff.2 ⟨none, jumps⟩ node rfl, gone⟩
  · rintro ⟨jumps, -, gone⟩
    exact ⟨gone, jumps⟩

end Pruned

/-- Pruning is one sweep.  What it leaves behind are the jumps to which, before the sweep, only
jumps led that nothing led to. -/
theorem stranded_iff_cut_off (prunes : options.pruneJumps = true)
    (built : build scope options = .ok flow) :
    ∃ whole, build scope { options with pruneJumps := false } = .ok whole ∧
      ∀ node, flow.Stranded node ↔ ∃ number other,
        flow.nodeOf? number = some node ∧ whole.nodeOf? number = some other ∧
        whole.BeginsWithJump other ∧ whole.graph.pred other ≠ [] ∧
        ∀ previous ∈ whole.graph.pred other, whole.Stranded previous := by
  obtain ⟨whole, wired, resolved, embed, unpruned, both⟩ := exists_unpruned prunes built
  refine ⟨whole, unpruned, fun node => ?_⟩
  have node_eq := both.after.wellFormed.nodeOf?_iff
  have other_eq := both.before.wellFormed.nodeOf?_iff
  rw [both.stranded_iff]
  constructor
  · rintro ⟨jumps, left⟩
    obtain ⟨number, -, -, hblock, -⟩ := id jumps
    exact ⟨number, embed node, (node_eq _ _).2 (both.blockOf?_eq node ▸ hblock),
      (other_eq _ _).2 hblock, jumps, left⟩
  · rintro ⟨number, other, hnode, hother, left⟩
    have image : whole.nodeOf? number = some (embed node) :=
      (other_eq _ _).2 (both.blockOf?_eq node ▸ (node_eq _ _).1 hnode)
    obtain rfl : embed node = other := Option.some.inj (image.symm.trans hother)
    exact left

/-- The return behind the first jump cuts off the second jump, which is pruned.  The third is left
without predecessors. -/
def cascadeSample : Scope :=
  { instructions := [
      ⟨0, .jumpAbsolute, .arg 4, 1, 0, false⟩,
      ⟨3, .returnValue, .none, 1, 0, false⟩,
      ⟨4, .jumpAbsolute, .arg 7, 2, 0, false⟩,
      ⟨7, .jumpAbsolute, .arg 10, 3, 0, false⟩,
      ⟨10, .nop, .none, 4, 0, false⟩]
    sorted := by decide }

theorem exists_stranded_cascadeSample :
    ∃ flow node, build cascadeSample {} = .ok flow ∧ flow.nodeOf? 1 = none ∧
      flow.nodeOf? 2 = some node ∧ node ≠ flow.entry ∧ flow.Stranded node := by
  have run : succeedsWith (fun flow => (flow.nodeOf? 1).isNone &&
      ((flow.blocks[2]?.bind Block.first?).any fun first => first.op.isJump) &&
      (flow.nodeOf? 2).any fun node => node != flow.entry && flow.graph.pred node == [])
      (build cascadeSample {}) = true := by decide +kernel
  obtain ⟨flow, built, found⟩ := succeedsWith_iff.1 run
  simp only [Bool.and_eq_true, Option.isNone_iff_eq_none, Option.any_eq_true,
    Option.bind_eq_some_iff, bne_iff_ne, beq_iff_eq] at found
  obtain ⟨⟨pruned, first, ⟨block, hblock, hfirst⟩, jumps⟩, node, hnode, inner, alone⟩ := found
  have hnumber := ((build_wellFormed built).nodeOf?_iff 2 node).1 hnode
  exact ⟨flow, node, built, pruned, hnode, inner, alone, 2, block, first, hnumber, hblock, hfirst,
    jumps⟩

theorem cascadeSample_cut_off :
    ∃ flow node whole other, build cascadeSample {} = .ok flow ∧ flow.nodeOf? 2 = some node ∧
      flow.Stranded node ∧ build cascadeSample { pruneJumps := false } = .ok whole ∧
      whole.nodeOf? 2 = some other ∧ whole.graph.pred other ≠ [] ∧
      ∀ previous ∈ whole.graph.pred other, whole.Stranded previous := by
  obtain ⟨flow, node, built, -, hnode, -, stranded⟩ := exists_stranded_cascadeSample
  obtain ⟨whole, unpruned, each⟩ := stranded_iff_cut_off rfl built
  obtain ⟨number, other, hnumber, hother, -, reached, all⟩ := (each node).1 stranded
  have same : number = 2 := by
    have wellFormed := build_wellFormed built
    rw [wellFormed.nodeOf?_iff] at hnode hnumber
    exact Option.some.inj (hnumber.symm.trans hnode)
  exact ⟨flow, node, whole, other, built, hnode, stranded, unpruned, same ▸ hother, reached, all⟩

theorem not_forall_stranded_pruned :
    ¬ ∀ (scope : Scope) (options : Options) (flow : FlowGraph) (node : Fin flow.size),
      scope.Distinct → options.pruneJumps = true → build scope options = .ok flow →
      node ≠ flow.entry → ¬ flow.Stranded node := by
  intro every
  obtain ⟨flow, node, built, -, -, inner, stranded⟩ := exists_stranded_cascadeSample
  exact every cascadeSample {} flow node (by decide) rfl built inner stranded

end FlowGraph

end StackFlow
