import StackFlow.FlowGraph.Basic
import StackFlow.Proofs.Construction
import StackFlow.Proofs.Partition

/-!
# Finished control-flow graphs

A graph that was built is taken apart into the drafts of its construction (`FlowGraph.Stages`).
From them follows what all analyses of the graph rely on (`FlowGraph.WellFormed`): no edge leads to
the entry or leaves the exit, blocks and nodes determine each other, and the blocks hold disjoint
ranges of addresses in ascending order.
-/

namespace StackFlow

namespace FlowGraph

variable {scope : Scope} {options : Options} {flow : FlowGraph} {wired resolved : Draft}

def lastDraft (options : Options) (resolved : Draft) : Draft :=
  if options.pruneJumps then resolved.prune else resolved

/-- The drafts from which a graph was built: after wiring, and after all markers were taken. -/
structure Stages (scope : Scope) (options : Options) (flow : FlowGraph) (wired resolved : Draft) :
    Prop where
  wire : (Draft.ofBlocks scope.endAddress scope.blocks).wire = .ok wired
  finalize : (List.range wired.blocks.length).foldlM (Draft.finalizeBlock options)
    wired.reclassify = .ok resolved
  freeze : (lastDraft options resolved).graph.freeze = .ok flow.frozen
  blocks : flow.blocks = resolved.blocks
  statements : resolved.blocks.mapM Block.checkedStatements = .ok flow.statements
  entry : flow.frozen.node? Draft.entryIndex = some flow.entry
  exit : flow.frozen.node? Draft.exitIndex = some flow.exit

theorem blocks_lastDraft (options : Options) (resolved : Draft) :
    (lastDraft options resolved).blocks = resolved.blocks := by
  unfold lastDraft
  split <;> rfl

theorem build_eq_ok (built : build scope options = .ok flow) :
    ∃ wired resolved, Stages scope options flow wired resolved := by
  obtain ⟨blocks, hblocks, rest⟩ := bind_eq_ok_iff.1 built
  obtain ⟨_, -, hblocks⟩ := bind_eq_ok_iff.1 hblocks
  obtain rfl := pure_eq_ok_iff.1 hblocks
  obtain ⟨wired, wire, rest⟩ := bind_eq_ok_iff.1 rest
  obtain ⟨draft, hdraft, rest⟩ := bind_eq_ok_iff.1 rest
  obtain ⟨resolved, finalize, hdraft⟩ := bind_eq_ok_iff.1 hdraft
  obtain ⟨frozen, freeze, rest⟩ := bind_eq_ok_iff.1 rest
  obtain ⟨statements, hstatements, rest⟩ := bind_eq_ok_iff.1 rest
  obtain ⟨entry, hentry, rest⟩ := bind_eq_ok_iff.1 rest
  obtain ⟨exit, hexit, rest⟩ := bind_eq_ok_iff.1 rest
  obtain rfl : lastDraft options resolved = draft := pure_eq_ok_iff.1 hdraft
  obtain rfl := pure_eq_ok_iff.1 rest
  rw [blocks_lastDraft] at hstatements
  exact ⟨wired, resolved, {
    wire
    finalize
    freeze
    blocks := blocks_lastDraft options resolved
    statements := hstatements
    entry := Fault.require_eq_ok_iff.1 hentry
    exit := Fault.require_eq_ok_iff.1 hexit }⟩

namespace Stages

variable (stages : Stages scope options flow wired resolved)

include stages

theorem touches : Draft.Touches (List.range wired.blocks.length) wired.reclassify resolved :=
  Draft.touches_foldlM_finalizeBlock stages.finalize

theorem endAddress_eq : resolved.endAddress = scope.endAddress :=
  stages.touches.endAddress.trans (Draft.wire_eq_ok stages.wire).1

theorem blocks_wired : wired.blocks = scope.blocks :=
  (Draft.wire_eq_ok stages.wire).2.1

theorem bare_eq : flow.blocks.map Block.bare = scope.blocks.map Block.bare := by
  rw [stages.blocks, stages.touches.bare]
  exact congrArg (List.map Block.bare) stages.blocks_wired

theorem getElem?_scope_blocks {number : Nat} {block : Block}
    (found : flow.blocks[number]? = some block) :
    ∃ original, scope.blocks[number]? = some original ∧
      block = { original with jumps := block.jumps } := by
  obtain ⟨original, horiginal, heq⟩ := Block.exists_getElem? stages.bare_eq found
  exact ⟨original, horiginal, Block.eq_of_bare_eq heq⟩

theorem getElem?_flow_blocks {number : Nat} {original : Block}
    (found : scope.blocks[number]? = some original) :
    ∃ block, flow.blocks[number]? = some block ∧
      block = { original with jumps := block.jumps } := by
  obtain ⟨block, hblock, heq⟩ := Block.exists_getElem? stages.bare_eq.symm found
  exact ⟨block, hblock, Block.eq_of_bare_eq heq.symm⟩

theorem isSealed : (lastDraft options resolved).Sealed := by
  have start : wired.reclassify.Sealed := by
    obtain ⟨entry, exit⟩ := Draft.sealed_wire stages.wire
    rw [← Draft.edges_reclassify] at entry exit
    exact ⟨entry, exit⟩
  have finished : resolved.Sealed := stages.touches.isSealed start
  unfold lastDraft
  split
  · exact Draft.sealed_prune finished
  · exact finished

theorem index_eq_iff {index : Nat} {node : Fin flow.size} :
    flow.frozen.node? index = some node ↔ flow.frozen.indices.get node = index :=
  Sketch.node?_freeze_iff stages.freeze

theorem index_exit_iff {node : Fin flow.size} :
    flow.frozen.indices.get node = Draft.exitIndex ↔ node = flow.exit := by
  rw [← stages.index_eq_iff, stages.exit, Option.some.injEq, eq_comm]

theorem entry_ne_exit : flow.entry ≠ flow.exit := by
  intro same
  have first := stages.index_eq_iff.1 stages.entry
  have second := stages.index_eq_iff.1 stages.exit
  rw [same, second] at first
  cases first

theorem sameOut_lastDraft (source : Fin flow.size) :
    Sketch.SameOut (flow.frozen.indices.get source) (lastDraft options resolved).graph
      resolved.graph := by
  have kept : (lastDraft options resolved).graph.contains (flow.frozen.indices.get source) = true :=
    (Sketch.exists_node?_freeze_iff stages.freeze).1 ⟨source, stages.index_eq_iff.2 rfl⟩
  unfold lastDraft at kept ⊢
  split at kept
  · next prunes =>
      rw [if_pos prunes]
      exact Draft.sameOut_prune kept
  · next keeps =>
      rw [if_neg keeps]
      exact fun _ _ => Iff.rfl

theorem mem_edges_iff {edge : Edge (Fin flow.size) BranchKind} :
    edge ∈ flow.graph.edges ↔
      ⟨flow.frozen.indices.get edge.source, flow.frozen.indices.get edge.target, edge.label⟩ ∈
        resolved.graph.edges :=
  (Sketch.mem_edges_freeze_iff stages.freeze).trans (stages.sameOut_lastDraft edge.source _ rfl)

theorem mem_succ_iff {source target : Fin flow.size} :
    target ∈ flow.graph.succ source ↔
      resolved.graph.Joins (flow.frozen.indices.get source) (flow.frozen.indices.get target) :=
  (Sketch.succ_freeze_iff stages.freeze).trans (stages.sameOut_lastDraft source).joins_iff

end Stages

/-! ## Well-formed graphs -/

structure WellFormed (flow : FlowGraph) : Prop where
  nodeOf?_iff : ∀ number node, flow.nodeOf? number = some node ↔ flow.blockOf? node = some number
  entry_source : ∀ node, flow.entry ∉ flow.graph.succ node
  exit_sink : ∀ node, node ∉ flow.graph.succ flow.exit
  statements_eq : flow.statements = flow.blocks.map Block.statements
  ordered : flow.blocks.Pairwise fun first second => first.endAddress ≤ second.start
  inside : ∀ block ∈ flow.blocks, ∀ instr ∈ block.instructions,
    block.contains instr.address = true

theorem blockOfIndex?_eq_some_iff {index number : Nat} :
    Draft.blockOfIndex? index = some number ↔ index = Draft.blockIndex number := by
  unfold Draft.blockOfIndex? Draft.blockIndex
  split
  · simp
  · simp
  · simp

theorem checkedStatements_eq_ok {block : Block} {statements : List Statement}
    (checked : block.checkedStatements = .ok statements) : statements = block.statements := by
  obtain ⟨_, -, done⟩ := bind_eq_ok_iff.1 checked
  exact (pure_eq_ok_iff.1 done).symm

theorem Stages.wellFormed (stages : Stages scope options flow wired resolved) :
    flow.WellFormed where
  nodeOf?_iff := by
    intro number node
    rw [nodeOf?, stages.index_eq_iff, blockOf?, blockOfIndex?_eq_some_iff]
  entry_source := by
    intro node edge
    obtain ⟨joined, member, -, heq⟩ := (Sketch.succ_freeze_iff stages.freeze).1 edge
    exact stages.isSealed.entry joined member (heq.trans (stages.index_eq_iff.1 stages.entry))
  exit_sink := by
    intro node edge
    obtain ⟨joined, member, heq, -⟩ := (Sketch.succ_freeze_iff stages.freeze).1 edge
    exact stages.isSealed.exit joined member (heq.trans (stages.index_eq_iff.1 stages.exit))
  statements_eq := by
    rw [stages.blocks]
    refine List.ext_getElem? fun number => ?_
    have same := getElem?_of_mapM_eq_ok stages.statements number
    rw [List.getElem?_map]
    cases hblock : resolved.blocks[number]? with
    | none =>
        rw [hblock, Option.map_none] at same
        rw [Option.map_none]
        exact Option.map_eq_none_iff.1 same.symm
    | some block =>
        rw [hblock] at same
        obtain ⟨statements, hstatements, heq⟩ := Option.map_eq_some_iff.1 same.symm
        rw [hstatements, Option.map_some, checkedStatements_eq_ok heq.symm]
  ordered := by
    have bare : (flow.blocks.map Block.bare).Pairwise
        fun first second => first.endAddress ≤ second.start := by
      rw [stages.bare_eq, List.pairwise_map]
      exact Scope.pairwise_blocks scope
    exact List.pairwise_map.1 bare
  inside := by
    intro block member instr inside
    have bare : block.bare ∈ scope.blocks.map Block.bare :=
      stages.bare_eq ▸ List.mem_map_of_mem member
    obtain ⟨original, horiginal, heq⟩ := List.mem_map.1 bare
    rw [Block.eq_of_bare_eq heq.symm] at inside ⊢
    have within : original.contains instr.address = true :=
      Scope.contains_of_mem_blocks horiginal inside
    exact within

theorem build_wellFormed (built : build scope options = .ok flow) : flow.WellFormed := by
  obtain ⟨wired, resolved, stages⟩ := build_eq_ok built
  exact stages.wellFormed

theorem blockAt?_eq_some_of_contains (wellFormed : flow.WellFormed) {number address : Nat}
    {block : Block} (found : flow.blocks[number]? = some block)
    (contains : block.contains address = true) :
    flow.blockAt? address = some number := by
  simp only [Block.contains, Bool.and_eq_true, decide_eq_true_eq] at contains
  obtain ⟨bound, hblock⟩ := List.getElem?_eq_some_iff.1 found
  have split : flow.blocks = flow.blocks.take number ++ block :: flow.blocks.drop (number + 1) := by
    rw [← hblock, List.getElem_cons_drop, List.take_append_drop]
  have later : ∀ other ∈ flow.blocks.drop (number + 1), address < other.start := by
    intro other member
    have ordered := wellFormed.ordered
    rw [split, List.pairwise_append, List.pairwise_cons] at ordered
    exact Nat.lt_of_lt_of_le contains.2 (ordered.2.1.1 other member)
  have rest : ∀ keep : Block × Nat → Bool,
      (∀ block number, keep (block, number) = decide (block.start ≤ address)) →
      ((flow.blocks.drop (number + 1)).zipIdx (number + 1)).filter keep = [] := by
    intro keep same
    rw [List.filter_eq_nil_iff]
    rintro ⟨other, position⟩ member
    have lt := later other (List.fst_mem_of_mem_zipIdx member)
    simpa [same] using lt
  have length : (flow.blocks.take number).length = number :=
    List.length_take_of_le (Nat.le_of_lt bound)
  unfold blockAt?
  rw [split, List.zipIdx_append, List.filter_append, List.zipIdx_cons, length, Nat.zero_add,
    List.filter_cons_of_pos (by simpa using contains.1), rest _ fun _ _ => rfl,
    List.getLast?_append]
  simp [Block.contains, contains]

end FlowGraph

end StackFlow
