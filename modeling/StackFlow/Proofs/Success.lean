import StackFlow.Proofs.EnclosingLoop
import StackFlow.Proofs.Shape

/-!
# Success of the construction

Wiring, the markers and freezing cannot fail: the edges that they add join two nodes, and the blocks
that they look up are there (`Draft.Whole`).  What is left are the checks of numbers.  A graph is
built exactly if the end of the scope and the stack effects in its blocks are words, and the only
fault is an overflow.
-/

namespace StackFlow

namespace Draft

variable {draft next before after : Draft} {index number target address scopeEnd : Nat}
  {kind : BranchKind} {blocks : List Block} {options : Options}

structure Whole (draft : Draft) : Prop where
  live : draft.graph.Live
  contains_iff : ∀ index,
    draft.graph.contains index = true ↔ index < blockIndex draft.blocks.length
  block_lt : ∀ index node number, draft.graph.node? index = some node →
    node.block = some number → number < draft.blocks.length

/-! ## Wiring -/

theorem contains_ofBlocks :
    (ofBlocks scopeEnd blocks).graph.contains index = true ↔ index < blockIndex blocks.length := by
  have length : (nodes blocks).length = blockIndex blocks.length := by simp [nodes, blockIndex]
  rw [Sketch.contains, node?_ofBlocks, ← length, isSome_getElem?]

theorem blockIndex_lt {bound : Nat} : blockIndex number < blockIndex bound ↔ number < bound := by
  simp [blockIndex]

theorem exitIndex_lt {bound : Nat} : exitIndex < blockIndex bound := by
  simp [blockIndex, exitIndex]

theorem nodeAt?_lt (found : draft.nodeAt? address = some target) :
    target < blockIndex draft.blocks.length := by
  rcases nodeAt?_eq_some found with ⟨-, rfl⟩ | ⟨number, block, hblock, -, rfl⟩
  · exact exitIndex_lt
  · exact blockIndex_lt.2 (List.getElem?_eq_some_iff.1 hblock).1

theorem ends_of_mem_wiredEdges {edge : Edge Nat BranchKind} (member : edge ∈ draft.wiredEdges) :
    edge.source < blockIndex draft.blocks.length ∧
      edge.target < blockIndex draft.blocks.length := by
  rcases mem_wiredEdges_iff.1 member with outer | ⟨block, number, hblock, jump⟩
  · unfold outerEdges at outer
    split at outer
    · next length =>
        obtain rfl := List.mem_singleton.1 outer
        exact ⟨by simp [blockIndex, entryIndex], exitIndex_lt⟩
    · next last length =>
        rw [length]
        rcases List.mem_cons.1 outer with rfl | outer
        · exact ⟨by simp [blockIndex, entryIndex], by simp [blockIndex]⟩
        · obtain rfl := List.mem_singleton.1 outer
          exact ⟨by simp [blockIndex], exitIndex_lt⟩
  · obtain ⟨address, -, hnode, hsource⟩ := mem_jumpEdges_iff.1 jump
    rw [hsource]
    exact ⟨blockIndex_lt.2 (List.getElem?_eq_some_iff.1 hblock).1, nodeAt?_lt hnode⟩

theorem exists_wire (scopeEnd : Nat) (blocks : List Block) :
    ∃ next, (ofBlocks scopeEnd blocks).wire = .ok next := by
  have ends : ∀ edge ∈ (ofBlocks scopeEnd blocks).wiredEdges,
      (ofBlocks scopeEnd blocks).graph.contains edge.source = true ∧
        (ofBlocks scopeEnd blocks).graph.contains edge.target = true := by
    intro edge member
    rw [contains_ofBlocks, contains_ofBlocks]
    exact ends_of_mem_wiredEdges member
  obtain ⟨graph, added⟩ := Sketch.exists_addEdges ends
  exact ⟨_, bind_eq_ok_iff.2 ⟨graph, added, rfl⟩⟩

theorem whole_reclassify (wired : (ofBlocks scopeEnd blocks).wire = .ok next) :
    next.reclassify.Whole where
  live := live_reclassify (live_wire wired)
  contains_iff := by
    intro index
    have same : next.reclassify.blocks = blocks := (wire_eq_ok wired).2.1
    have start : (ofBlocks scopeEnd blocks).graph.contains index = true ↔
        index < blockIndex blocks.length := contains_ofBlocks
    rwa [contains_reclassify, Sketch.contains, node?_wire wired, same, ← node?_ofBlocks]
  block_lt := by
    intro index node number found hblock
    have labels := labels_reclassify wired found
    have same : next.reclassify.blocks = blocks := (wire_eq_ok wired).2.1
    rw [same]
    exact labels.lt_length (labels.block_eq ▸ hblock)

/-! ## Markers -/

theorem Taken.whole (taken : Taken number before after) (whole : before.Whole) : after.Whole where
  live := taken.live whole.live
  contains_iff := by
    intro index
    rw [Sketch.contains_congr taken.touches.slots, taken.touches.length_blocks]
    exact whole.contains_iff index
  block_lt := by
    intro index node number found
    rw [Sketch.node?, taken.touches.slots] at found
    rw [taken.touches.length_blocks]
    exact whole.block_lt index node number found

namespace Whole

variable (whole : draft.Whole)

include whole

theorem exists_redirect (bound : number < draft.blocks.length)
    (inside : target < blockIndex draft.blocks.length) (kind : BranchKind)
    (jumps : SortedSet Jump → SortedSet Jump) :
    ∃ next, draft.redirect number target kind jumps = .ok next := by
  have ends := And.intro ((whole.contains_iff _).2 (blockIndex_lt.2 bound))
    ((whole.contains_iff target).2 inside)
  obtain ⟨graph, added⟩ :=
    @Sketch.exists_addEdge _ _ (draft.graph.clearOut (blockIndex number)) _ _ kind ends
  exact ⟨_, bind_eq_ok_iff.2 ⟨graph, added, rfl⟩⟩

theorem exists_dominates (dominator number : Nat) :
    ∃ answer, draft.dominates dominator number = .ok answer := by
  obtain ⟨frozen, froze⟩ := whole.live.exists_freeze
  refine exists_bind_eq_ok froze ?_
  split
  · exact ⟨_, rfl⟩
  · exact ⟨_, rfl⟩

theorem exists_follow {exit : LoopExit} {block setup : Block} {issue : Issue}
    (bound : number < draft.blocks.length) :
    ∃ next, (match draft.destination? exit block setup with
      | none => pure (draft.report issue)
      | some destination =>
          match draft.nodeAt? destination with
          | none => pure (draft.report (.unknownJumpTarget number destination))
          | some target => draft.redirect number target .always (resolvedJumps exit destination)) =
      Except.ok next := by
  split
  · exact ⟨_, rfl⟩
  · split
    · exact ⟨_, rfl⟩
    · next target hnode => exact whole.exists_redirect bound (nodeAt?_lt hnode) _ _

theorem report (issue : Issue) : (draft.report issue).Whole :=
  ⟨whole.live, whole.contains_iff, whole.block_lt⟩

theorem exists_resolve (options : Options) (exit : LoopExit)
    (bound : number < draft.blocks.length) :
    ∃ next, draft.resolve options exit number = .ok next := by
  refine exists_bind_eq_ok (Fault.fetch_eq_ok bound) ?_
  obtain ⟨found, hfound⟩ := exists_enclosingLoop? whole.block_lt (blockIndex number) _
  refine exists_bind_eq_ok hfound ?_
  cases found with
  | none => exact ⟨_, rfl⟩
  | some found =>
      obtain ⟨loop, setup⟩ := found
      simp only
      split
      · obtain ⟨dominated, hdominated⟩ := whole.exists_dominates loop number
        refine exists_bind_eq_ok hdominated ?_
        cases dominated with
        | true => exact whole.exists_follow bound
        | false => exact (whole.report _).exists_follow bound
      · exact whole.exists_follow bound

theorem exists_applyMarker (options : Options) (bound : number < draft.blocks.length)
    (marker : Marker) : ∃ next, applyMarker options number draft marker = .ok next := by
  cases marker with
  | breaks => exact whole.exists_resolve options .breaks bound
  | continues => exact whole.exists_resolve options .continues bound
  | returns | raises => exact whole.exists_redirect bound exitIndex_lt _ _

theorem exists_finalizeBlock (options : Options) (bound : number < draft.blocks.length) :
    ∃ next, finalizeBlock options draft number = .ok next ∧
      next.Whole ∧ next.blocks.length = draft.blocks.length := by
  have each : ∀ marker ∈ markerOrder.filter draft.blocks[number].hasMarker, ∀ current : Draft,
      current.Whole ∧ current.blocks.length = draft.blocks.length →
      ∃ following, applyMarker options number current marker = .ok following ∧
        following.Whole ∧ following.blocks.length = draft.blocks.length := by
    rintro marker - current ⟨holds, length⟩
    obtain ⟨following, applied⟩ := holds.exists_applyMarker options (length ▸ bound) marker
    have taken := taken_applyMarker applied
    exact ⟨following, applied, taken.whole holds, taken.touches.length_blocks.trans length⟩
  obtain ⟨next, folded, kept⟩ := exists_foldlM_eq_ok _ ⟨whole, rfl⟩ each
  exact ⟨next, bind_eq_ok_iff.2 ⟨_, Fault.fetch_eq_ok bound, folded⟩, kept⟩

theorem exists_finalizeBlocks (options : Options) :
    ∃ resolved, (List.range draft.blocks.length).foldlM (finalizeBlock options) draft =
      .ok resolved ∧ resolved.Whole := by
  have each : ∀ number ∈ List.range draft.blocks.length, ∀ current : Draft,
      current.Whole ∧ current.blocks.length = draft.blocks.length →
      ∃ following, finalizeBlock options current number = .ok following ∧
        following.Whole ∧ following.blocks.length = draft.blocks.length := by
    rintro number member current ⟨holds, length⟩
    have bound : number < current.blocks.length := length ▸ List.mem_range.1 member
    obtain ⟨following, finalized, kept⟩ := holds.exists_finalizeBlock options bound
    exact ⟨following, finalized, kept.1, kept.2.trans length⟩
  obtain ⟨resolved, folded, kept⟩ := exists_foldlM_eq_ok _ ⟨whole, rfl⟩ each
  exact ⟨resolved, folded, kept.1⟩

end Whole

end Draft

/-! ## The whole construction -/

namespace FlowGraph

variable {scope : Scope} {options : Options} {flow : FlowGraph} {wired resolved : Draft}

theorem contains_lastDraft {resolved : Draft} {index : Nat}
    (outer : ∀ number, index ≠ Draft.blockIndex number)
    (present : resolved.graph.contains index = true) :
    (lastDraft options resolved).graph.contains index = true := by
  unfold lastDraft
  split
  · refine Sketch.contains_foldl_removeNode.2 ⟨present, fun gone => ?_⟩
    obtain ⟨⟨block, number⟩, -, heq⟩ := List.mem_map.1 gone
    exact outer number heq.symm
  · exact present

theorem live_lastDraft {resolved : Draft} (options : Options) (live : resolved.graph.Live) :
    (lastDraft options resolved).graph.Live := by
  unfold lastDraft
  split
  · exact live.foldl_removeNode _
  · exact live

/-- Everything of the construction but the checks of numbers, which depend on the scope and on
whether loops must dominate alone. -/
structure Assembled (scope : Scope) (options : Options) (wired resolved : Draft)
    (frozen : Frozen Node BranchKind) (entry exit : Fin frozen.size) : Prop where
  wire : (Draft.ofBlocks scope.endAddress scope.blocks).wire = .ok wired
  finalize : (List.range wired.blocks.length).foldlM (Draft.finalizeBlock options)
    wired.reclassify = .ok resolved
  freeze : (lastDraft options resolved).graph.freeze = .ok frozen
  entry : frozen.node? Draft.entryIndex = some entry
  exit : frozen.node? Draft.exitIndex = some exit

theorem exists_assembled (scope : Scope) (options : Options) :
    ∃ wired resolved frozen entry exit,
      Assembled scope options wired resolved frozen entry exit := by
  obtain ⟨wired, wire⟩ := Draft.exists_wire scope.endAddress scope.blocks
  obtain ⟨resolved, finalize, whole⟩ := (Draft.whole_reclassify wire).exists_finalizeBlocks options
  obtain ⟨frozen, freeze⟩ := (live_lastDraft options whole.live).exists_freeze
  have present : ∀ index, (∀ number, index ≠ Draft.blockIndex number) →
      index < Draft.blockIndex resolved.blocks.length → ∃ node, frozen.node? index = some node :=
    fun index outer bound => (Sketch.exists_node?_freeze_iff freeze).2
      (contains_lastDraft outer ((whole.contains_iff index).2 bound))
  obtain ⟨entry, hentry⟩ := present Draft.entryIndex
    (fun _ => Draft.blockIndex_ne_entryIndex.symm) (by simp [Draft.blockIndex, Draft.entryIndex])
  obtain ⟨exit, hexit⟩ := present Draft.exitIndex
    (fun _ => Draft.blockIndex_ne_exitIndex.symm) Draft.exitIndex_lt
  exact ⟨wired, resolved, frozen, entry, exit, wire, finalize, freeze, hentry, hexit⟩

def assemble (scope : Scope) (resolved : Draft) (frozen : Frozen Node BranchKind)
    (entry exit : Fin frozen.size) (statements : List (List Statement)) : FlowGraph :=
  { scope := scope.id
    name := scope.name
    blocks := resolved.blocks
    statements
    frozen
    entry
    exit
    issues := resolved.issues ++
      ((resolved.blocks.zip statements).mapIdx fun number (block, statements) =>
        unbalanced number block statements).flatten
    warnings := scope.ignoredLeaders.map .ignoredBoundary ++ resolved.issues.map .issue }

theorem Assembled.build_eq {wired resolved : Draft} {frozen : Frozen Node BranchKind}
    {entry exit : Fin frozen.size}
    (assembled : Assembled scope options wired resolved frozen entry exit) :
    build scope options = (do
      let _ ← scope.checkedEndAddress
      let statements ← resolved.blocks.mapM Block.checkedStatements
      return assemble scope resolved frozen entry exit statements) := by
  have finalize : wired.finalize options = .ok (lastDraft options resolved) :=
    bind_eq_ok_iff.2 ⟨resolved, assembled.finalize, rfl⟩
  have hblocks := blocks_lastDraft options resolved
  have hissues : (lastDraft options resolved).issues = resolved.issues := by
    unfold lastDraft
    split <;> rfl
  unfold build Scope.checkedBlocks
  cases scope.checkedEndAddress with
  | error fault => rfl
  | ok stop =>
      simp only [bind, Except.bind, pure, Except.pure, assembled.wire, finalize, assembled.freeze,
        hblocks, hissues, Fault.require, assembled.entry, assembled.exit, assemble]

theorem Stages.live (stages : Stages scope options flow wired resolved) : resolved.graph.Live :=
  Draft.foldlM_finalizeBlock_induct stages.finalize
    (Draft.live_reclassify (Draft.live_wire stages.wire)) fun _ _ _ taken => taken.live

theorem Assembled.stages {frozen : Frozen Node BranchKind} {entry exit : Fin frozen.size}
    {statements : List (List Statement)}
    (assembled : Assembled scope options wired resolved frozen entry exit)
    (split : resolved.blocks.mapM Block.checkedStatements = .ok statements) :
    Stages scope options (assemble scope resolved frozen entry exit statements) wired resolved where
  wire := assembled.wire
  finalize := assembled.finalize
  freeze := assembled.freeze
  blocks := rfl
  statements := split
  entry := assembled.entry
  exit := assembled.exit

theorem exists_checkedStatements_iff {block : Block} :
    (∃ statements, block.checkedStatements = .ok statements) ↔
      ∀ instr ∈ block.instructions,
        instr.effect.pops < Word.limit ∧ instr.effect.pushes < Word.limit := by
  have effect : ∀ instr : Instruction, (∃ effect, instr.checkedEffect = .ok effect) ↔
      instr.effect.pops < Word.limit ∧ instr.effect.pushes < Word.limit := by
    intro instr
    simp only [Instruction.checkedEffect, Opcode.checkedStackEffect, bind_eq_ok_iff,
      pure_eq_ok_iff, Word.checked_eq_ok_iff, Instruction.effect]
    constructor
    · rintro ⟨_, _, ⟨pops, -⟩, _, ⟨pushes, -⟩, -⟩
      exact ⟨pops, pushes⟩
    · rintro ⟨pops, pushes⟩
      exact ⟨_, _, ⟨pops, rfl⟩, _, ⟨pushes, rfl⟩, rfl⟩
  simp only [← effect, ← exists_mapM_eq_ok_iff]
  constructor
  · rintro ⟨statements, checked⟩
    obtain ⟨effects, mapped, -⟩ := bind_eq_ok_iff.1 checked
    exact ⟨effects, mapped⟩
  · rintro ⟨effects, mapped⟩
    exact exists_bind_eq_ok mapped ⟨_, rfl⟩

theorem Assembled.bare_eq {wired resolved : Draft} {frozen : Frozen Node BranchKind}
    {entry exit : Fin frozen.size}
    (assembled : Assembled scope options wired resolved frozen entry exit) :
    resolved.blocks.map Block.bare = scope.blocks.map Block.bare :=
  (Draft.touches_foldlM_finalizeBlock assembled.finalize).bare.trans
    (congrArg (List.map Block.bare) (Draft.wire_eq_ok assembled.wire).2.1)

/-- A graph is built exactly if the end of the scope is a word and the counts of all stack effects
in its blocks are. -/
theorem exists_build_iff :
    (∃ flow, build scope options = .ok flow) ↔
      scope.endAddress < Word.limit ∧ ∀ block ∈ scope.blocks, ∀ instr ∈ block.instructions,
        instr.effect.pops < Word.limit ∧ instr.effect.pushes < Word.limit := by
  obtain ⟨wired, resolved, frozen, entry, exit, assembled⟩ := exists_assembled scope options
  have effects : (∀ block ∈ scope.blocks, ∀ instr ∈ block.instructions,
        instr.effect.pops < Word.limit ∧ instr.effect.pushes < Word.limit) ↔
      ∀ block ∈ resolved.blocks, ∃ statements, block.checkedStatements = .ok statements := by
    simp only [exists_checkedStatements_iff]
    exact (Block.forall_mem_congr assembled.bare_eq fun _ => Iff.rfl).symm
  rw [assembled.build_eq, effects, ← exists_mapM_eq_ok_iff]
  simp only [bind_eq_ok_iff, pure_eq_ok_iff, Scope.checkedEndAddress, Word.checked_eq_ok_iff]
  constructor
  · rintro ⟨flow, stop, ⟨fits, -⟩, statements, mapped, -⟩
    exact ⟨fits, statements, mapped⟩
  · rintro ⟨fits, statements, mapped⟩
    exact ⟨_, _, ⟨fits, rfl⟩, statements, mapped, rfl⟩

end FlowGraph

end StackFlow
