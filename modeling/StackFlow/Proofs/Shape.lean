import StackFlow.Proofs.FlowGraph

/-!
# Shape of a finished control-flow graph

The labels of the nodes are given out with the blocks, and only the kinds of conditions change
after that (`Draft.Labels`).  Wiring and markers keep the graph simple and send returns to the exit
(`Draft.Regular`).  Both pass to the graph that is frozen.
-/

namespace StackFlow

theorem eq_singleton_of_nodup {α : Type} {items : List α} {single : α} (nodup : items.Nodup)
    (only : ∀ item, item ∈ items ↔ item = single) : items = [single] := by
  refine List.perm_singleton.1 ((List.perm_ext_iff_of_nodup nodup (List.nodup_singleton _)).2 ?_)
  simpa using only

/-! ## Kinds of blocks and jumps -/

namespace Block

variable {first last : Instruction} {setup : Option (Region × Nat)} {address : Nat}
  {kind : BranchKind}

theorem ofBlock_classify_ne :
    NodeKind.ofBlock (classify first setup last) ≠ .entry ∧
      NodeKind.ofBlock (classify first setup last) ≠ .implicitReturn := by
  unfold classify
  split
  · next region _ => cases region <;> simp [regionKind, NodeKind.ofBlock]
  · split
    · simp [NodeKind.ofBlock]
    · split <;> simp [NodeKind.ofBlock]

theorem branch?_of_mem_ofCode {length : Nat} {first : Decoded} {rest : List Decoded}
    {next : Option Instruction}
    (member : ⟨.address address, kind⟩ ∈ (ofCode length first rest next).jumps) :
    (∃ code ∈ first :: rest, code.branch? = some kind) ∨
      kind = fallThroughKind (rest.getLastD first).instr := by
  rcases address_mem_ofCode_iff.1 member with ⟨code, hcode, branch, -⟩ | ⟨-, -, through, -⟩
  · exact .inl ⟨code, hcode, branch⟩
  · exact .inr through

theorem kind_ne_onReturn_of_mem_ofCode {length : Nat} {first : Decoded} {rest : List Decoded}
    {next : Option Instruction}
    (member : ⟨.address address, kind⟩ ∈ (ofCode length first rest next).jumps) :
    kind ≠ .onReturn := by
  rcases branch?_of_mem_ofCode member with ⟨code, -, branch⟩ | rfl
  · rintro rfl
    unfold Decoded.branch? at branch
    split at branch <;> cases branch
  · unfold fallThroughKind
    split <;> simp

end Block

namespace Draft

variable {draft next before after : Draft} {index number scopeEnd : Nat} {block : Block}
  {blocks : List Block} {options : Options}

/-! ## Labels -/

inductive Labels (blocks : List Block) : Nat → Node → Prop where
  | entry : Labels blocks entryIndex ⟨.entry, none⟩
  | exit : Labels blocks exitIndex ⟨.implicitReturn, none⟩
  | block {number : Nat} {block : Block} {kind : NodeKind} (found : blocks[number]? = some block)
      (hkind : kind = .ofBlock block.kind ∨ kind = .condition) :
      Labels blocks (blockIndex number) ⟨kind, some number⟩

theorem node?_ofBlocks :
    (ofBlocks scopeEnd blocks).graph.node? index = (nodes blocks)[index]? := by
  simp only [ofBlocks, Sketch.node?, List.getElem?_map]
  cases (nodes blocks)[index]? <;> rfl

theorem getElem?_nodes (found : blocks[number]? = some block) :
    (nodes blocks)[blockIndex number]? = some ⟨.ofBlock block.kind, some number⟩ := by
  simp [nodes, blockIndex, found]

theorem labels_of_getElem? {node : Node} (found : (nodes blocks)[index]? = some node) :
    Labels blocks index node := by
  match index with
  | 0 =>
      obtain rfl := Option.some.inj found
      exact .entry
  | 1 =>
      obtain rfl := Option.some.inj found
      exact .exit
  | number + 2 =>
      simp only [nodes, List.getElem?_cons_succ, List.getElem?_mapIdx,
        Option.map_eq_some_iff] at found
      obtain ⟨block, hblock, rfl⟩ := found
      exact .block hblock (.inl rfl)

theorem exists_edge_of_branchesBothWays {graph : Sketch Node BranchKind}
    (branches : branchesBothWays graph index = true) :
    ∃ edge ∈ graph.edges, edge.source = index ∧ edge.label = .onTrue := by
  simp only [branchesBothWays, Bool.and_eq_true, List.contains_iff_mem, List.mem_map] at branches
  obtain ⟨⟨edge, member, label⟩, -⟩ := branches
  rw [Sketch.mem_outEdges] at member
  exact ⟨edge, member.1, member.2, label⟩

theorem Labels.block_eq {node : Node} (labels : Labels blocks index node) :
    node.block = blockOfIndex? index := by
  cases labels <;> rfl

theorem Labels.lt_length {node : Node} (labels : Labels blocks index node)
    (found : blockOfIndex? index = some number) : number < blocks.length := by
  cases labels with
  | entry => cases found
  | exit => cases found
  | block hblock _ =>
      obtain rfl := Option.some.inj found
      exact (List.getElem?_eq_some_iff.1 hblock).1

theorem blockOfIndex?_eq_none_iff :
    blockOfIndex? index = none ↔ index = entryIndex ∨ index = exitIndex := by
  unfold blockOfIndex?
  split <;> simp [entryIndex, exitIndex]

theorem Labels.kind_eq_iff {node : Node} (labels : Labels blocks index node)
    (inner : ∀ block ∈ blocks, NodeKind.ofBlock block.kind ≠ .entry ∧
      NodeKind.ofBlock block.kind ≠ .implicitReturn) :
    (node.kind = .entry ↔ index = entryIndex) ∧
      (node.kind = .implicitReturn ↔ index = exitIndex) := by
  cases labels with
  | entry => simp [entryIndex, exitIndex]
  | exit => simp [entryIndex, exitIndex]
  | block found hkind =>
      have kinds := inner _ (List.mem_of_getElem? found)
      rcases hkind with rfl | rfl
      · simp [kinds, blockIndex_ne_entryIndex, blockIndex_ne_exitIndex]
      · simp [blockIndex_ne_entryIndex, blockIndex_ne_exitIndex]

def firstIndex (blocks : List Block) : Nat :=
  if blocks.isEmpty then exitIndex else blockIndex 0

theorem mem_wiredEdges_entry_iff {edge : Edge Nat BranchKind} (leaves : edge.source = entryIndex) :
    edge ∈ draft.wiredEdges ↔ edge = ⟨entryIndex, firstIndex draft.blocks, .always⟩ := by
  have inner : ¬ ∃ block number, draft.blocks[number]? = some block ∧
      edge ∈ draft.jumpEdges number block := by
    rintro ⟨block, number, -, jump⟩
    obtain ⟨-, -, -, source⟩ := mem_jumpEdges_iff.1 jump
    exact blockIndex_ne_entryIndex (source.symm.trans leaves)
  rw [mem_wiredEdges_iff, or_iff_left inner]
  unfold outerEdges firstIndex
  split
  · next length => simp [List.length_eq_zero_iff.1 length]
  · next last length =>
      have other : edge ≠ ⟨blockIndex last, exitIndex, .always⟩ := by
        rintro rfl
        exact blockIndex_ne_entryIndex leaves
      have filled : draft.blocks.isEmpty = false := by
        simp [List.isEmpty_eq_false_iff, ← List.length_pos_iff, length]
      simp [other, filled]

section Wire

variable (wired : (ofBlocks scopeEnd blocks).wire = .ok next)

include wired

theorem node?_wire : next.graph.node? index = (nodes blocks)[index]? := by
  obtain ⟨-, -, added⟩ := wire_eq_ok wired
  rw [← node?_ofBlocks, Sketch.node?, Sketch.slots_addEdges added]
  rfl

theorem onlyEdge_entry_wire :
    next.graph.OnlyEdge ⟨entryIndex, firstIndex next.blocks, .always⟩ := by
  obtain ⟨-, -, added⟩ := wire_eq_ok wired
  have only : ∀ edge ∈ next.graph.edges, edge.source = entryIndex →
      edge = ⟨entryIndex, firstIndex next.blocks, .always⟩ := fun edge member leaves =>
    (mem_wiredEdges_entry_iff leaves).1 (least_of_mem_edges_wire wired member).1
  intro edge leaves
  refine ⟨fun member => only edge member leaves, ?_⟩
  rintro rfl
  obtain ⟨edge, member, leaves, -⟩ := (Sketch.joins_addEdges_iff added).2
    (.inr ⟨_, (mem_wiredEdges_entry_iff rfl).2 rfl, rfl, rfl⟩)
  exact only edge member leaves ▸ member

theorem labels_reclassify {node : Node} (found : next.reclassify.graph.node? index = some node) :
    Labels blocks index node := by
  rw [node?_reclassify, node?_wire wired, Option.map_eq_some_iff] at found
  obtain ⟨label, hlabel, rfl⟩ := found
  have labels := labels_of_getElem? hlabel
  split
  · next branches =>
      obtain ⟨edge, member, leaves, branch⟩ := exists_edge_of_branchesBothWays branches
      cases labels with
      | entry =>
          rw [(onlyEdge_entry_wire wired edge leaves).1 member] at branch
          cases branch
      | exit => exact absurd leaves ((sealed_wire wired).exit edge member)
      | block found _ => exact .block found (.inr rfl)
  · exact labels

end Wire

/-! ## Edges -/

structure Regular (draft : Draft) : Prop where
  simple : draft.graph.Simple
  returns : ∀ edge ∈ draft.graph.edges, edge.label = .onReturn → edge.target = exitIndex

theorem Regular.congr (regular : before.Regular) (same : after.graph.edges = before.graph.edges) :
    after.Regular := by
  obtain ⟨simple, returns⟩ := regular
  rw [Sketch.Simple, ← same] at simple
  exact ⟨simple, same ▸ returns⟩

theorem regular_wire (wired : (ofBlocks scopeEnd blocks).wire = .ok next)
    (never : ∀ block ∈ blocks, ∀ address kind, ⟨.address address, kind⟩ ∈ block.jumps →
      kind ≠ .onReturn) : next.Regular where
  simple := by
    obtain ⟨-, -, added⟩ := wire_eq_ok wired
    have empty : (ofBlocks scopeEnd blocks).graph.Simple := List.Pairwise.nil
    exact empty.addEdges added
  returns := by
    intro edge member label
    rcases mem_wiredEdges_iff.1 (least_of_mem_edges_wire wired member).1 with
      outer | ⟨block, number, found, jump⟩
    · rw [(mem_outerEdges outer).1] at label
      cases label
    · obtain ⟨address, jump, -⟩ := mem_jumpEdges_iff.1 jump
      rw [(wire_eq_ok wired).2.1] at found
      exact absurd label (never block (List.mem_of_getElem? found) address edge.label jump)

theorem Taken.regular (taken : Taken number before after) (regular : before.Regular) :
    after.Regular := by
  cases taken with
  | idle agrees => exact regular.congr (congrArg Sketch.edges agrees.graph)
  | sent redirected _ returns _ =>
      refine ⟨?_, fun edge member label => ?_⟩
      · rw [Sketch.Simple, redirected.edges]
        refine List.pairwise_append.2
          ⟨regular.simple.of_sublist List.filter_sublist, List.pairwise_singleton _ _, ?_⟩
        intro edge old other new same
        obtain rfl := List.mem_singleton.1 new
        exact absurd same (Sketch.mem_edges_clearOut.1 old).2
      · rcases redirected.mem_edges_iff.1 member with ⟨old, -⟩ | rfl
        · exact regular.returns edge old label
        · exact returns label

theorem foldlM_finalizeBlock_induct {invariant : Draft → Prop} {numbers : List Nat}
    (folded : numbers.foldlM (finalizeBlock options) draft = .ok next) (start : invariant draft)
    (step : ∀ number before after, Taken number before after → invariant before →
      invariant after) : invariant next := by
  refine foldlM_induct (motive := fun _ => invariant) folded start ?_
  intro _ number _ before after _ holds finalized
  obtain ⟨block, -, taken⟩ := bind_eq_ok_iff.1 finalized
  exact foldlM_induct (motive := fun _ => invariant) taken holds
    fun _ _ _ _ _ _ holds applied => step number _ _ (taken_applyMarker applied) holds

theorem Regular.prune (regular : draft.Regular) : draft.prune.Regular where
  simple := regular.simple.of_sublist Sketch.sublist_edges_foldl_removeNode
  returns := fun edge member =>
    regular.returns edge (Sketch.mem_edges_foldl_removeNode.1 member).1

end Draft

/-! ## The frozen graph -/

namespace FlowGraph

variable {scope : Scope} {options : Options} {flow : FlowGraph} {wired resolved : Draft}

theorem nodesOfKind_eq {kind : NodeKind} {single : Fin flow.size}
    (only : ∀ node, (flow.graph.label node).kind = kind ↔ node = single) :
    flow.nodesOfKind kind = [single] := by
  refine eq_singleton_of_nodup ((List.nodup_finRange _).filter _) fun node => ?_
  simp [nodesOfKind, only]

theorem node?_of_lastDraft {index : Nat} {label : Node}
    (found : (lastDraft options resolved).graph.node? index = some label) :
    resolved.graph.node? index = some label := by
  unfold lastDraft at found
  split at found
  · unfold Draft.prune at found
    rw [Sketch.node?_foldl_removeNode] at found
    split at found
    · cases found
    · exact found
  · exact found

namespace Stages

variable (stages : Stages scope options flow wired resolved)

include stages

theorem index_entry_iff {node : Fin flow.size} :
    flow.frozen.indices.get node = Draft.entryIndex ↔ node = flow.entry := by
  rw [← stages.index_eq_iff, stages.entry, Option.some.injEq, eq_comm]

theorem labels (node : Fin flow.size) :
    Draft.Labels scope.blocks (flow.frozen.indices.get node) (flow.graph.label node) := by
  have found := node?_of_lastDraft (Sketch.node?_eq_some_label stages.freeze node)
  rw [Sketch.node?, stages.touches.slots] at found
  exact Draft.labels_reclassify stages.wire found

theorem exists_node {number : Nat} {block : Block} (found : flow.blocks[number]? = some block)
    (begins : ∀ first, block.first? = some first → first.op.isJump = false) :
    ∃ node, flow.nodeOf? number = some node := by
  have present : resolved.graph.contains (Draft.blockIndex number) = true := by
    obtain ⟨original, horiginal, -⟩ := stages.getElem?_scope_blocks found
    rw [Sketch.contains_congr stages.touches.slots, Sketch.contains, Draft.node?_reclassify,
      Draft.node?_wire stages.wire, Draft.getElem?_nodes horiginal]
    rfl
  refine (Sketch.exists_node?_freeze_iff stages.freeze).2 ?_
  unfold lastDraft
  split
  · refine Sketch.contains_foldl_removeNode.2 ⟨present, fun gone => ?_⟩
    obtain ⟨⟨other, index⟩, hfilter, heq⟩ := List.mem_map.1 gone
    simp only [List.mem_filter, Bool.and_eq_true, Option.any_eq_true] at hfilter
    obtain ⟨hother, -, first, hfirst, jumps⟩ := hfilter
    obtain rfl : index = number := Draft.blockIndex_inj.1 heq
    rw [List.mem_zipIdx_iff_getElem?, ← stages.blocks, found] at hother
    obtain rfl := Option.some.inj hother
    rw [begins first hfirst] at jumps
    cases jumps
  · exact present

theorem regular : (lastDraft options resolved).Regular := by
  have never : ∀ block ∈ scope.blocks, ∀ address kind, ⟨.address address, kind⟩ ∈ block.jumps →
      kind ≠ .onReturn := by
    intro block member address kind jump
    obtain ⟨start, stop, -, spans⟩ := Scope.exists_spans_of_mem member
    obtain ⟨first, rest, following, -, rfl, -⟩ := spans.ofCode
    exact Block.kind_ne_onReturn_of_mem_ofCode jump
  have start := (Draft.regular_wire stages.wire never).congr (Draft.edges_reclassify wired)
  have finished : resolved.Regular :=
    Draft.foldlM_finalizeBlock_induct stages.finalize start fun _ _ _ taken => taken.regular
  unfold lastDraft
  split
  · exact finished.prune
  · exact finished

theorem onlyEdge_entry :
    resolved.graph.OnlyEdge ⟨Draft.entryIndex, Draft.firstIndex wired.blocks, .always⟩ := by
  refine (Draft.onlyEdge_entry_wire stages.wire).congr fun edge leaves => ?_
  rw [stages.touches.edge edge fun number _ => leaves ▸ Draft.blockIndex_ne_entryIndex.symm,
    Draft.edges_reclassify]

theorem index_inj {first second : Fin flow.size} :
    flow.frozen.indices.get first = flow.frozen.indices.get second ↔ first = second := by
  rw [← stages.index_eq_iff, stages.index_eq_iff.2 rfl, Option.some.injEq, eq_comm]

theorem nodup_ends : (flow.graph.edges.map fun edge => (edge.source, edge.target)).Nodup :=
  stages.regular.simple.nodup_freeze stages.freeze

theorem nodup_succ (node : Fin flow.size) : (flow.graph.succ node).Nodup := by
  have simple := List.pairwise_map.1 stages.nodup_ends
  refine List.pairwise_map.2 ((simple.filter _).imp_of_mem ?_)
  intro first second hfirst hsecond ne same
  have source := beq_iff_eq.1 (List.mem_filter.1 hfirst).2
  have source' := beq_iff_eq.1 (List.mem_filter.1 hsecond).2
  exact ne (Prod.ext (source.trans source'.symm) same)

theorem exists_outEdge_entry :
    ∃ target, flow.frozen.indices.get target = Draft.firstIndex scope.blocks ∧
      flow.graph.outEdges flow.entry = [⟨flow.entry, target, .always⟩] := by
  have entry := stages.index_eq_iff.1 stages.entry
  have only := stages.blocks_wired ▸ stages.onlyEdge_entry
  obtain ⟨target, htarget⟩ := Sketch.exists_node_of_joins stages.freeze
    ((stages.sameOut_lastDraft flow.entry).joins_iff.2 (entry ▸ only.joins_iff.2 rfl))
  refine ⟨target, htarget, ?_⟩
  refine eq_singleton_of_nodup (stages.nodup_ends.of_map.filter _) fun edge => ?_
  rw [Digraph.outEdges, List.mem_filter, stages.mem_edges_iff, beq_iff_eq]
  constructor
  · rintro ⟨member, leaves⟩
    have same := (only _ (leaves ▸ entry)).1 member
    rw [← entry, ← htarget, Edge.mk.injEq, stages.index_inj, stages.index_inj] at same
    obtain ⟨source, target, label⟩ := edge
    rw [Edge.mk.injEq]
    exact same
  · rintro rfl
    rw [entry, htarget]
    exact ⟨(only _ rfl).2 rfl, rfl⟩

theorem outEdges_entry : ∃ edge, flow.graph.outEdges flow.entry = [edge] := by
  obtain ⟨target, -, only⟩ := stages.exists_outEdge_entry
  exact ⟨_, only⟩

theorem kind_eq_iff (node : Fin flow.size) :
    ((flow.graph.label node).kind = .entry ↔ node = flow.entry) ∧
      ((flow.graph.label node).kind = .implicitReturn ↔ node = flow.exit) := by
  rw [← stages.index_entry_iff, ← stages.index_exit_iff]
  refine (stages.labels node).kind_eq_iff fun block member => ?_
  obtain ⟨start, stop, -, spans⟩ := Scope.exists_spans_of_mem member
  obtain ⟨first, rest, following, -, rfl, -⟩ := spans.ofCode
  exact Block.ofBlock_classify_ne

theorem blockOf?_eq_none_iff {node : Fin flow.size} :
    flow.blockOf? node = none ↔ node = flow.entry ∨ node = flow.exit := by
  rw [← stages.index_entry_iff, ← stages.index_exit_iff]
  exact Draft.blockOfIndex?_eq_none_iff

theorem lt_length_blocks {node : Fin flow.size} {number : Nat}
    (found : flow.blockOf? node = some number) : number < flow.blocks.length := by
  have length : flow.blocks.length = scope.blocks.length := by
    simpa using congrArg List.length stages.bare_eq
  rw [length]
  exact (stages.labels node).lt_length found

theorem target_eq_exit {edge : Edge (Fin flow.size) BranchKind} (member : edge ∈ flow.graph.edges)
    (label : edge.label = .onReturn) : edge.target = flow.exit :=
  stages.index_exit_iff.1 <|
    stages.regular.returns _ ((Sketch.mem_edges_freeze_iff stages.freeze).1 member) label

theorem inEdges_entry : flow.graph.inEdges flow.entry = [] := by
  have source : flow.graph.pred flow.entry = [] := by
    refine List.eq_nil_iff_forall_not_mem.2 fun node member => ?_
    exact stages.wellFormed.entry_source node (Digraph.mem_pred_iff_mem_succ.1 member)
  exact List.map_eq_nil_iff.1 source

theorem outEdges_exit : flow.graph.outEdges flow.exit = [] :=
  List.map_eq_nil_iff.1 (List.eq_nil_iff_forall_not_mem.2 stages.wellFormed.exit_sink)

end Stages

/-- The shape of every graph that was built: the entry, its only edge, the exit, and the blocks of
all other nodes. -/
theorem build_shape (built : build scope options = .ok flow) :
    flow.nodesOfKind .entry = [flow.entry] ∧
    flow.graph.inEdges flow.entry = [] ∧
    (∃ edge, flow.graph.outEdges flow.entry = [edge]) ∧
    flow.nodesOfKind .implicitReturn = [flow.exit] ∧
    flow.graph.outEdges flow.exit = [] ∧
    (flow.graph.edges.map fun edge => (edge.source, edge.target)).Nodup ∧
    (∀ edge ∈ flow.graph.edges, edge.label = .onReturn → edge.target = flow.exit) ∧
    (∀ number node, flow.nodeOf? number = some node ↔ flow.blockOf? node = some number) ∧
    (∀ node, (flow.graph.label node).block = flow.blockOf? node) ∧
    (∀ node, flow.blockOf? node = none ↔ node = flow.entry ∨ node = flow.exit) ∧
    ∀ node number, flow.blockOf? node = some number → number < flow.blocks.length := by
  obtain ⟨wired, resolved, stages⟩ := build_eq_ok built
  exact ⟨nodesOfKind_eq fun node => (stages.kind_eq_iff node).1, stages.inEdges_entry,
    stages.outEdges_entry, nodesOfKind_eq fun node => (stages.kind_eq_iff node).2,
    stages.outEdges_exit, stages.nodup_ends, fun _ => stages.target_eq_exit,
    stages.wellFormed.nodeOf?_iff, fun node => (stages.labels node).block_eq,
    fun _ => stages.blockOf?_eq_none_iff, fun _ _ => stages.lt_length_blocks⟩

/-- A return behind a jump, and a break outside of all loops behind another. -/
def straySample : Scope :=
  { instructions := [
      ⟨0, .jumpAbsolute, .arg 4, 1, 0, false⟩,
      ⟨3, .returnValue, .none, 1, 0, false⟩,
      ⟨4, .jumpAbsolute, .arg 8, 2, 0, false⟩,
      ⟨7, .breakLoop, .none, 2, 0, false⟩,
      ⟨8, .nop, .none, 3, 0, false⟩]
    sorted := by decide }

theorem straySample_shape :
    ∃ flow first third, build straySample {} = .ok flow ∧
      flow.nodeOf? 0 = some first ∧ flow.nodeOf? 1 = none ∧ flow.nodeOf? 2 = some third ∧
      flow.blockOf? third = some 2 ∧ (flow.graph.label third).block = some 2 ∧
      flow.nodesOfKind .entry = [flow.entry] ∧ flow.nodesOfKind .implicitReturn = [flow.exit] ∧
      ∃ edge ∈ flow.graph.edges, edge.source = first ∧ edge.target = flow.exit := by
  have run : succeedsWith (fun flow => (flow.nodeOf? 1).isNone &&
      (flow.nodeOf? 0).any (fun first => flow.graph.edges.any fun edge =>
        edge.source == first && edge.label == .onReturn) && (flow.nodeOf? 2).isSome)
      (build straySample {}) = true := by decide +kernel
  obtain ⟨flow, built, found⟩ := succeedsWith_iff.1 run
  simp only [Bool.and_eq_true, Option.isNone_iff_eq_none, Option.any_eq_true, List.any_eq_true,
    beq_iff_eq, Option.isSome_iff_exists] at found
  obtain ⟨⟨pruned, first, hfirst, edge, member, source, label⟩, third, hthird⟩ := found
  obtain ⟨entry, -, -, exit, -, -, returns, inverse, field, -⟩ := build_shape built
  have block := (inverse 2 third).1 hthird
  exact ⟨flow, first, third, built, hfirst, pruned, hthird, block, (field third).trans block,
    entry, exit, edge, member, source, returns edge member label⟩

end FlowGraph

end StackFlow
